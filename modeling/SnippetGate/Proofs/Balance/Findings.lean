import SnippetGate.Proofs.Balance.Fate

/-!
# What a walk finds, step by step

A step never looks at the issues that were found before. It adds those of its own move, and all it
does to the older ones is to note that an opener is read past its attributes. So a walk can be
taken to have found less: an issue that is left out at one place is left out ever after, and nothing
else is different.
-/

namespace SnippetGate

open ScanState

/-! ### The issues of a move -/

namespace Move

/-- What a move finds, the latest first. -/
def found (s : ScanState) (m : Move) : List Issue := (m.apply { s with issues := [] }).issues

/-- What a move does to an issue that was found before. -/
def reread (s : ScanState) : Move → Issue → Issue
  | beginChildren =>
    match s.stack.frames with
    | [] => id
    | top :: _ => Issue.withOpened top.pos
  | _ => id

variable {s : ScanState} {m : Move} {l : List Issue}

theorem reread_cases (s : ScanState) (m : Move) :
    m.reread s = id ∨ ∃ q, m.reread s = Issue.withOpened q := by
  cases m with
  | beginChildren =>
    unfold reread
    dsimp only
    split
    · exact .inl rfl
    · next top _ _ => exact .inr ⟨top.pos, rfl⟩
  | _ => exact .inl rfl

/-- What was found before does not matter to a move. -/
theorem apply_issues (s : ScanState) (l : List Issue) (m : Move) :
    m.apply { s with issues := l } =
      { m.apply s with issues := m.found s ++ l.map (m.reread s) } := by
  cases m with
  | closeBracket opener x =>
    simp only [found, reread, apply, ScanState.advance, ScanState.closeBracket, List.map_id]
    split
    · rfl
    · split <;> rfl
  | closeTag name n =>
    simp only [found, reread, apply, ScanState.advance, ScanState.closeTag, List.map_id]
    split
    · simp only [List.append_nil]
    · split
      · rfl
      · split <;> rfl
  | beginChildren =>
    unfold found reread apply ScanState.advance ScanState.beginChildren
    cases s.stack.frames with
    | nil => simp only [List.map_id, List.nil_append]
    | cons top fs => simp only [List.map_nil, List.nil_append]
  | _ =>
    simp only [found, reread, apply, List.map_id]
    rfl

theorem issues_apply (s : ScanState) (m : Move) :
    (m.apply s).issues = m.found s ++ s.issues.map (m.reread s) :=
  congrArg ScanState.issues (apply_issues s s.issues m)

/-- Only a closing tag is found faulty as one. -/
theorem exists_closeTag_of_found {e : Issue} (he : e ∈ m.found s)
    (h : e.isAboutClosingTag = true) : ∃ name n, m = closeTag name n := by
  unfold found at he
  cases m with
  | closeBracket opener x =>
    rcases closesBracket { s with issues := [] } opener x with
      ⟨-, -, -, hi⟩ | ⟨-, -, stop, hi⟩ | ⟨-, stop, hi⟩
    · rw [hi] at he
      cases he
    · rw [hi] at he
      obtain rfl := List.mem_singleton.mp he
      cases h
    · rw [hi] at he
      obtain rfl := List.mem_singleton.mp he
      cases h
  | closeTag name n => exact ⟨name, n, rfl⟩
  | beginChildren =>
    simp only [apply, ScanState.advance, ScanState.beginChildren] at he
    split at he <;> cases he
  | cutShort top =>
    obtain rfl := List.mem_singleton.mp he
    cases h
  | stray top x =>
    obtain rfl := List.mem_singleton.mp he
    cases h
  | _ => cases he

end Move

/-! ### Where issues stand -/

/-- The issue and its opener stand before an offset. -/
structure Issue.Before (p : Nat) (e : Issue) : Prop where
  pos : e.pos < p
  opener : ∀ f ∈ e.opener?, f.pos < p
  kind : e.kind ≠ .unclosed

namespace Issue

variable {p q : Nat} {e : Issue}

theorem Before.mono (h : e.Before p) (hpq : p ≤ q) : e.Before q :=
  ⟨Nat.lt_of_lt_of_le h.pos hpq, fun f hf => Nat.lt_of_lt_of_le (h.opener f hf) hpq, h.kind⟩

theorem Before.withOpened (h : e.Before p) (q : Nat) : (e.withOpened q).Before p := by
  refine ⟨by rw [pos_withOpened]; exact h.pos, ?_, by rw [kind_withOpened]; exact h.kind⟩
  obtain ⟨cause, pos, stop⟩ := e
  cases cause with
  | mismatch f c deeper =>
    have hf := h.opener f rfl
    simp only [Issue.withOpened]
    split
    · exact fun g hg => Option.some.inj hg ▸ hf
    · exact fun g hg => Option.some.inj hg ▸ hf
  | _ => exact h.opener

end Issue

namespace ScanState

variable {o : ScanOptions} {t : Text} {n : Nat} {s u v e : ScanState} {m : Move}
  {p : Issue → Bool}

theorem InWhole.reads (hs : Walks (whole t.length) (Scan.start t 0) s) {x : Char} {rest : Text}
    (ha : s.cursor.after = x :: rest) :
    (s.moveAt x rest).Reads (whole 0) t s.cursor.pos s.stack.frames := by
  have hord := hs.orderly
  exact Move.next_reads (hord.after ▸ ha) (fun _ hc => hc) nofun

/-- A closing tag that a move reads takes some characters. -/
theorem length_closeTag_pos {name : Text} {k pos : Nat}
    (h : IsClosingTag name (t.slice pos (pos + k))) : 0 < k := by
  by_contra hk
  obtain rfl : k = 0 := Nat.eq_zero_of_not_pos hk
  have hnil : t.slice pos (pos + 0) = [] := by
    rw [Text.slice, List.drop_take, Nat.add_zero, Nat.sub_self, List.take_zero]
  exact h.ne_nil hnil

/-- What a move finds stands before the place it leads to. -/
theorem before_of_mem_found (hn : Nested o t 0 s.cursor.pos s.stack.frames)
    (hr : m.Reads o t s.cursor.pos s.stack.frames) (ha : s.cursor.after ≠ []) :
    ∀ e ∈ m.found s, e.Before (m.apply s).cursor.pos := by
  have hlength := List.length_pos_iff.mpr ha
  have hpos : (m.apply s).cursor.pos = s.cursor.pos + min m.length s.cursor.after.length := by
    rw [Move.cursor_apply, Cursor.pos_skip]
  -- an issue about a closer that stands here, and an opener that is open here
  have here {c : Closer} {top : Frame} {deeper : Bool} {stop : Option Nat}
      (htop : top ∈ s.stack.frames) (hm : 0 < m.length) :
      Issue.Before (m.apply s).cursor.pos ⟨.mismatch top c deeper, s.cursor.pos, stop⟩ := by
    have hlt := (hn.bounds top htop).2
    exact ⟨by dsimp only; omega, fun f hf => by rw [← Option.some.inj hf]; omega,
      (by decide : IssueKind.mismatch ≠ .unclosed)⟩
  have alone {c : Closer} {stop : Option Nat} (hm : 0 < m.length) :
      Issue.Before (m.apply s).cursor.pos ⟨.unmatched c, s.cursor.pos, stop⟩ :=
    ⟨by dsimp only; omega, fun f hf => absurd hf (Option.not_mem_none f),
      (by decide : IssueKind.unmatchedCloser ≠ .unclosed)⟩
  unfold Move.found
  cases m with
  | closeBracket opener x =>
    have hone : 0 < (Move.closeBracket opener x).length := Nat.zero_lt_one
    rcases closesBracket { s with issues := [] } opener x with
      ⟨-, -, -, hi⟩ | ⟨hf, -, stop, hi⟩ | ⟨-, stop, hi⟩
    · rw [hi]
      exact List.forall_mem_nil _
    · rw [hi]
      have htop : _ ∈ s.stack.frames := List.mem_of_mem_head? (by rw [hf]; rfl)
      exact List.forall_mem_singleton.mpr (here htop hone)
    · rw [hi]
      exact List.forall_mem_singleton.mpr (alone hone)
  | closeTag name k =>
    have hk : 0 < (Move.closeTag name k).length := length_closeTag_pos hr.1
    rcases closesTag { s with issues := [] } name k with
      ⟨stop, hf, -, -, -, hi⟩ | ⟨stop, hf, -, -, hi⟩ | ⟨stop, -, hi⟩
    · rw [hi]
      intro e he
      rw [List.append_nil] at he
      obtain ⟨f, hmem, rfl⟩ := List.mem_map.mp (List.mem_reverse.mp he)
      have hopen : f ∈ s.stack.frames := by
        rw [hf]
        simp [hmem]
      exact here hopen hk
    · rw [hi]
      have htop : _ ∈ s.stack.frames := List.mem_of_mem_head? (by rw [hf]; rfl)
      exact List.forall_mem_singleton.mpr (here htop hk)
    · rw [hi]
      exact List.forall_mem_singleton.mpr (alone hk)
  | beginChildren =>
    simp only [Move.apply, ScanState.advance, ScanState.beginChildren]
    split <;> exact List.forall_mem_nil _
  | cutShort top =>
    have hlt := (hn.bounds top (List.mem_of_mem_head? hr.1)).2
    refine List.forall_mem_singleton.mpr
      ⟨?_, fun f hf => ?_, (by decide : IssueKind.unterminatedTag ≠ .unclosed)⟩
    · dsimp only
      omega
    · rw [← Option.some.inj hf]
      omega
  | stray top x =>
    exact List.forall_mem_singleton.mpr
      (here (List.mem_of_mem_head? hr.2.2.1) Nat.zero_lt_one)
  | _ => exact List.forall_mem_nil _

/-- What a scan has found stands before the place it has come to. -/
theorem before_of_mem_issues (hw : Walks (whole t.length) (Scan.start t 0) s) :
    ∀ e ∈ s.issues, e.Before s.cursor.pos := by
  have both := hw.keeps (P := fun s => Walks (whole t.length) (Scan.start t 0) s ∧
      ∀ e ∈ s.issues, e.Before s.cursor.pos) (fun {s u} hst ⟨hs, h⟩ => ?_)
    ⟨.refl, List.forall_mem_nil _⟩
  · exact both.2
  refine ⟨hs.tail hst, ?_⟩
  have hle := hst.pos_le
  obtain ⟨x, rest, ha, rfl⟩ := ((inWhole_start t).walks hs).steps hst
  rw [Move.issues_apply]
  refine List.forall_mem_append.mpr ⟨?_, fun e he => ?_⟩
  · exact before_of_mem_found hs.orderly.nested (InWhole.reads hs ha) (by rw [ha]; nofun)
  · obtain ⟨e', he', rfl⟩ := List.mem_map.mp he
    rcases Move.reread_cases s (s.moveAt x rest) with hid | ⟨q, hq⟩
    · rw [hid]
      exact (h e' he').mono hle
    · rw [hq]
      exact ((h e' he').withOpened q).mono hle

/-! ### Along a walk -/

/-- Where something comes to hold on a walk, there is a step that brings it about. -/
theorem Walks.exists_first {P : ScanState → Prop} (hw : Walks o s e) (hs : ¬ P s) (he : P e) :
    ∃ u v, Walks o s u ∧ ¬ P u ∧ Steps o u v ∧ P v ∧ Walks o v e := by
  induction hw with
  | refl => exact absurd he hs
  | @tail u v hsu huv ih =>
    by_cases hu : P u
    · obtain ⟨w, w', hw, hnot, hst, hP, hw'⟩ := ih hu
      exact ⟨w, w', hw, hnot, hst, hP, hw'.tail huv⟩
    · exact ⟨u, v, hsu, hu, huv, he, .refl⟩

/-- What was found stays, but for what depends on how far its opener is read. -/
theorem Walks.exists_issues (hw : Walks (whole n) s u) (hs : InWhole n s) :
    ∃ (new : List Issue) (g : Issue → Issue),
      (∀ (α : Type) (F : Issue → α), (∀ i q, F (i.withOpened q) = F i) → ∀ i, F (g i) = F i) ∧
        u.issues = new ++ s.issues.map g := by
  induction hw with
  | refl => exact ⟨[], id, fun _ _ _ _ => rfl, by rw [List.map_id, List.nil_append]⟩
  | @tail u v hsu huv ih =>
    obtain ⟨new, g, hg, hu⟩ := ih
    obtain ⟨x, rest, -, rfl⟩ := (hs.walks hsu).steps huv
    refine ⟨(u.moveAt x rest).found u ++ new.map ((u.moveAt x rest).reread u),
      (u.moveAt x rest).reread u ∘ g, fun α F hF i => ?_, ?_⟩
    · rw [Function.comp_apply, ← hg α F hF i]
      rcases Move.reread_cases u (u.moveAt x rest) with hid | ⟨q, hq⟩
      · rw [hid, id]
      · rw [hq, hF]
    · rw [Move.issues_apply, hu, List.map_append, List.map_map, List.append_assoc]

/-! ### Leaving an issue out -/

/-- The same place with the first issue left out that has a property. -/
def without (p : Issue → Bool) (s : ScanState) : ScanState :=
  { s with issues := (s.issues.reverse.eraseP p).reverse }

theorem without_apply (hp : ∀ i q, p (i.withOpened q) = p i) (hs : ∃ i ∈ s.issues, p i = true)
    (m : Move) : (m.apply s).without p = m.apply (s.without p) := by
  obtain ⟨i, hi, hpi⟩ := hs
  have hcomp : p ∘ m.reread s = p := by
    rcases Move.reread_cases s m with hid | ⟨q, hq⟩
    · rw [hid]
      rfl
    · rw [hq]
      exact funext fun i => hp i q
  have hmem : ∃ e ∈ s.issues.reverse.map (m.reread s), p e = true := by
    refine ⟨m.reread s i, List.mem_map_of_mem (List.mem_reverse.mpr hi), ?_⟩
    rw [← hpi]
    exact congrFun hcomp i
  obtain ⟨e, he, hpe⟩ := hmem
  have hkept : ((m.apply s).issues.reverse.eraseP p).reverse =
      m.found s ++ (s.issues.reverse.eraseP p).reverse.map (m.reread s) := by
    rw [Move.issues_apply, List.reverse_append, ← List.map_reverse,
      List.eraseP_append_left hpe _ he, List.eraseP_map, hcomp, List.reverse_append,
      List.reverse_reverse, List.map_reverse]
  have happly : m.apply (s.without p) = _ := Move.apply_issues s _ m
  rw [happly, ← hkept]
  rfl

/-- An issue that is left out at one place is left out ever after. -/
theorem Walks.without (hw : Walks (whole n) s u) (hs : InWhole n s)
    (hp : ∀ i q, p (i.withOpened q) = p i) (hi : ∃ i ∈ s.issues, p i = true) :
    Walks (whole n) (s.without p) (u.without p) ∧ ∃ i ∈ u.issues, p i = true := by
  induction hw with
  | refl => exact ⟨.refl, hi⟩
  | @tail u v hsu huv ih =>
    obtain ⟨hw, hu⟩ := ih
    obtain ⟨x, rest, ha, rfl⟩ := (hs.walks hsu).steps huv
    have hin : InWhole n (u.without p) :=
      ⟨(hs.walks hsu).stop, (hs.walks hsu).closedAt?⟩
    have hst := hin.steps_moveAt (show (u.without p).cursor.after = x :: rest from ha)
    have hmove : (u.without p).moveAt x rest = u.moveAt x rest := rfl
    rw [hmove, ← without_apply hp hu] at hst
    exact ⟨hw.tail hst, exists_issue_apply (fun e q he => (hp e q).trans he) _ hu⟩

/-- What is left out of a walk is left out of the outcome. -/
theorem outcome_without (h : s.closedAt? = none) (hi : ∃ i ∈ s.issues, p i = true) (t : Text) :
    (s.without p).outcome t = { s.outcome t with issues := (s.outcome t).issues.eraseP p } := by
  obtain ⟨i, hi, hpi⟩ := hi
  have hclosed : (s.without p).closedAt? = none := h
  have herase (l : List Issue) :
      (s.issues.reverse ++ l).eraseP p = s.issues.reverse.eraseP p ++ l :=
    List.eraseP_append_left hpi _ (List.mem_reverse.mpr hi)
  have htext : (s.without p).openText t = s.openText t := rfl
  have hframes : (s.without p).openFrames = s.openFrames := rfl
  rw [outcome, outcome, hclosed, h, htext, hframes]
  simp only [Option.isSome_none, Bool.false_eq_true, if_false, List.append_assoc, herase]
  simp [ScanState.without]

end ScanState

end SnippetGate
