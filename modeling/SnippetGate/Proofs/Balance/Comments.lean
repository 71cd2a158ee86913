import SnippetGate.Proofs.Balance.Accepts
import SnippetGate.Proofs.Balance.Seam

/-!
# What stands inside of comments

Up to a comment a scan does not see what stands in it, and it goes over the comment without taking
notice. Behind the comment it may look back: whether a `<` opens a tag depends on what stands
before it, and what stands before it, but for blanks, may be the end of the comment. The end of a
comment that has one is a slash, after which no expression begins. A comment that ends with the
line has no end of its own, and its last word is taken for script. So two comments of the second
kind are alike to all scans if and only if both or none of them end like script that lets an
expression follow.
-/

namespace SnippetGate

open ScanState

/-! ### What a scan finds -/

/-- All of an issue but its wording. -/
def Issue.outline (i : Issue) : IssueKind × Nat × Option Frame × Option Closer × Option Nat :=
  (i.kind, i.pos, i.opener?, i.closer?, i.closerEnd?)

/-- Two scans that found the same, but for the wording. -/
structure Scan.Agrees (r r' : Scan) : Prop where
  issues : r.issues.map Issue.outline = r'.issues.map Issue.outline
  unclosed : r.unclosed = r'.unclosed
  closedAt? : r.closedAt? = r'.closedAt?

/-- From alike places, only the wording of what was found can differ. -/
theorem Alike.agrees {s s' : ScanState} (h : Alike s s') (t t' : Text) :
    (s.outcome t).Agrees (s'.outcome t') := by
  have hopen : (s.openText t).map Issue.outline = (s'.openText t').map Issue.outline := by
    unfold openText
    rw [h.stack]
    cases s'.stack.mode <;> rfl
  have hframes : s.openFrames = s'.openFrames := by
    unfold openFrames
    rw [h.stack]
  unfold outcome
  rw [h.closedAt?]
  split
  · exact ⟨by rw [h.issues], rfl, rfl⟩
  · refine ⟨?_, by rw [h.stack], rfl⟩
    simp only [List.map_append, h.issues, hopen, hframes]

/-! ### Looking back -/

section LookingBack

variable {x z : Char} {p q w : Text}

theorem expressionCanFollow_slash : expressionCanFollow ('/' :: p) = false := by
  unfold expressionCanFollow
  rw [List.dropWhile_cons_of_neg (by decide)]
  rfl

/-- Looking back does not pass a character that is neither a blank nor part of a name, and looks no
farther than it has to past blanks. -/
theorem expressionCanFollow_append (hz : isNameChar z = false)
    (h : expressionCanFollow (z :: p) = expressionCanFollow (z :: q)) :
    expressionCanFollow (w ++ z :: p) = expressionCanFollow (w ++ z :: q) := by
  induction w with
  | nil => exact h
  | cons x w ih =>
    rw [List.cons_append, List.cons_append]
    cases hx : isBlank x with
    | true => rw [expressionCanFollow_of_isBlank hx, expressionCanFollow_of_isBlank hx, ih]
    | false =>
      have hstop (r : Text) : (x :: (w ++ z :: r)).takeWhile isNameChar =
          (x :: (w ++ [z])).takeWhile isNameChar := by
        have hm : z ∈ x :: (w ++ [z]) := by simp
        have := (takeWhile_append_of_stop (u := r) hm hz).1
        simpa using this
      have hb : ¬ isBlank x = true := by rw [hx]; exact nofun
      unfold expressionCanFollow
      rw [List.dropWhile_cons_of_neg hb, List.dropWhile_cons_of_neg hb]
      dsimp only
      rw [hstop p, hstop q]

end LookingBack

/-- Whether the text of a comment, read as script, lets an expression follow. -/
def looksOpen (x : Text) : Bool := expressionCanFollow (x.reverse ++ ['/', '/'])

theorem expressionCanFollow_comment (x b : Text) :
    expressionCanFollow (x.reverse ++ '/' :: '/' :: b) = looksOpen x :=
  expressionCanFollow_append (by decide)
    (expressionCanFollow_slash.trans expressionCanFollow_slash.symm)

/-! ### Up to the comment -/

/-- The scan of a text comes to a place in script, outside of strings and comments. -/
structure ComesTo (t : Text) (i : Nat) (s : ScanState) : Prop where
  walks : Walks (whole t.length) (Scan.start t 0) s
  pos : s.cursor.pos = i
  mode : s.stack.mode = .normal
  context : contextOf s.stack.frames = .script

/-- The scan of a text comes to an offset in script, outside of strings and comments. -/
def EntersAt (t : Text) (i : Nat) : Prop := ∃ s, ComesTo t i s

theorem ComesTo.inWhole {t : Text} {i : Nat} {s : ScanState} (h : ComesTo t i s) :
    InWhole t.length s := (inWhole_start t).walks h.walks

section UpToComment

variable {pre u v : Text} {z : Char} {n m : Nat} {s s' t : ScanState}

/-- How two walks have come together through the text before a comment, if they are not past its
beginning. -/
def Before (pre u v : Text) (z : Char) (n m : Nat) (start s : ScanState) : Prop :=
  InWhole n s ∧ (pre.length < s.cursor.pos ∨ ∃ t, Walks (whole m) start t ∧ InWhole m t ∧
    Along (pre.drop s.cursor.pos ++ ['/', z]) u v s t)

theorem screens_comment (hz : stopsLooking z = true) (q : Text) : Screens (q ++ ['/', z]) where
  shields := ⟨'/', by simp, rfl⟩
  tail := by
    intro _
    cases q with
    | nil => exact ⟨z, by simp, hz⟩
    | cons y q => exact ⟨'/', by simp, rfl⟩

theorem Before.step {start : ScanState} (hz : stopsLooking z = true)
    (h : Before pre u v z n m start s) (hst : Steps (whole n) s s') :
    Before pre u v z n m start s' := by
  obtain ⟨hs, h⟩ := h
  obtain ⟨x, rest, ha, rfl⟩ := hs.steps hst
  refine ⟨hs.apply _, ?_⟩
  rw [Move.cursor_apply, Cursor.pos_skip]
  rcases h with hpast | ⟨t, hw, ht, h⟩
  · exact .inl (by omega)
  cases hd : pre.drop s.cursor.pos with
  | nil =>
    -- at the comment's slash: whatever comes next is past its beginning
    have hslash : s.cursor.after = '/' :: z :: u := by rw [h.left, hd]; rfl
    obtain ⟨rfl, -⟩ := List.cons.inj (ha.symm.trans hslash)
    have hpos : 0 < (s.moveAt '/' rest).length := Move.length_next_pos (by decide)
    have hle := List.drop_eq_nil_iff.mp hd
    rw [ha, List.length_cons]
    exact .inl (by omega)
  | cons y q =>
    rw [hd, List.cons_append] at h
    have hlen : q.length + 1 = pre.length - s.cursor.pos := by
      rw [← List.length_cons, ← hd, List.length_drop]
    have hr := screens_comment hz q
    have hleft : s.cursor.after = y :: (q ++ ['/', z] ++ u) := h.left
    have hright : t.cursor.after = y :: (q ++ ['/', z] ++ v) := h.right
    obtain ⟨rfl, rfl⟩ := List.cons.inj (ha.symm.trans hleft)
    have hst' := ht.steps_moveAt hright
    have hle : (s.moveAt x (q ++ ['/', z] ++ u)).length ≤ (q ++ ['/', z]).length + 1 :=
      Along.length_moveAt_le hr
    have halong := h.apply hle
    rw [h.moveAt_eq hr] at hst'
    generalize s.moveAt x (q ++ ['/', z] ++ u) = k at hle hst' halong ⊢
    have hmin : min k.length s.cursor.after.length = k.length := by
      rw [hleft, List.length_cons, List.length_append]
      omega
    rw [hmin]
    by_cases hpast : pre.length < s.cursor.pos + k.length
    · exact .inl hpast
    · refine .inr ⟨_, hw.tail hst', ht.apply _, ?_⟩
      have hk : k.length ≤ (x :: q).length := by
        rw [List.length_cons]
        omega
      rw [← List.drop_drop, hd, ← List.drop_append_of_le_length hk]
      exact halong

/-- Whether a scan comes to a comment does not depend on what stands in it or behind it. -/
theorem ComesTo.along (hz : stopsLooking z = true)
    (h : ComesTo (pre ++ '/' :: z :: u) pre.length s) :
    ∃ t, ComesTo (pre ++ '/' :: z :: v) pre.length t ∧ Along ['/', z] u v s t := by
  have hstart := along_start (pre ++ ['/', z]) u v
  have hsplit (r : Text) : pre ++ ['/', z] ++ r = pre ++ '/' :: z :: r := by simp
  rw [hsplit, hsplit] at hstart
  have hbefore := h.walks.keeps (P := Before pre u v z _ (pre ++ '/' :: z :: v).length
      (Scan.start (pre ++ '/' :: z :: v) 0))
    (fun hst hb => hb.step hz hst)
    ⟨inWhole_start _, .inr ⟨_, .refl, inWhole_start _, hstart⟩⟩
  rcases hbefore.2 with hpast | ⟨t, hw, -, halong⟩
  · rw [h.pos] at hpast
    exact absurd hpast (Nat.lt_irrefl _)
  · rw [h.pos, List.drop_length, List.nil_append] at halong
    exact ⟨t, ⟨hw, halong.pos ▸ h.pos, halong.stack ▸ h.mode, halong.stack ▸ h.context⟩, halong⟩

end UpToComment

/-! ### Behind the comment -/

section BehindComment

variable {p q : Text} {z : Char} {n : Nat} {s s' t : ScanState}

/-- Two places of walks over texts that agree behind them, and before them up to `p` and `q`. -/
structure Behind (p q : Text) (s t : ScanState) : Prop extends Alike s t where
  after : s.cursor.after = t.cursor.after
  before : ∃ w, s.cursor.before = w ++ p ∧ t.cursor.before = w ++ q

theorem Behind.apply (h : Behind p q s t) (m : Move) : Behind p q (m.apply s) (m.apply t) where
  toAlike := h.toAlike.apply (by rw [h.after])
  after := by
    rw [Move.cursor_apply, Move.cursor_apply, Cursor.after_skip, Cursor.after_skip, h.after]
  before := by
    obtain ⟨w, hs, ht⟩ := h.before
    refine ⟨(s.cursor.after.take m.length).reverse ++ w, ?_, ?_⟩
    · rw [Move.cursor_apply, Cursor.before_skip, hs, List.append_assoc]
    · rw [Move.cursor_apply, Cursor.before_skip, ht, h.after, List.append_assoc]

/-- Behind a place that looking back does not tell apart, every step is the same. -/
theorem Behind.step (hz : isNameChar z = false)
    (hpq : expressionCanFollow (z :: p) = expressionCanFollow (z :: q))
    (h : InWhole n s ∧ InWhole n t ∧ Behind (z :: p) (z :: q) s t) (hst : Steps (whole n) s s') :
    ∃ t', Steps (whole n) t t' ∧ InWhole n s' ∧ InWhole n t' ∧ Behind (z :: p) (z :: q) s' t' := by
  obtain ⟨hs, ht, h⟩ := h
  obtain ⟨x, rest, ha, rfl⟩ := hs.steps hst
  have hmove : t.moveAt x rest = s.moveAt x rest := by
    obtain ⟨w, hw, hw'⟩ := h.before
    unfold moveAt
    rw [hw, hw', h.stack, expressionCanFollow_append hz hpq]
  have hst' := ht.steps_moveAt (h.after ▸ ha)
  rw [hmove] at hst'
  exact ⟨_, hst', hs.apply _, ht.apply _, h.apply _⟩

/-- At the end of the text nothing more is found. -/
theorem Alike.agrees_of_after (h : Alike s t) (hs : InWhole n s) (ht : InWhole n t)
    (hsa : s.cursor.after = []) (hta : t.cursor.after = []) (r r' : Text) :
    ((run (whole n) s).outcome r).Agrees ((run (whole n) t).outcome r') := by
  rw [hs.run_eq_of_after .refl hsa, ht.run_eq_of_after .refl hta]
  exact h.agrees r r'

/-- If looking back does not tell two places apart, the scans agree. -/
theorem Behind.agrees (h : Behind (z :: p) (z :: q) s t) (hz : isNameChar z = false)
    (hpq : expressionCanFollow (z :: p) = expressionCanFollow (z :: q)) (hs : InWhole n s)
    (ht : InWhole n t) (r r' : Text) :
    ((run (whole n) s).outcome r).Agrees ((run (whole n) t).outcome r') := by
  have hw := walks_run (whole n) s
  obtain ⟨t', hw', hs', ht', h'⟩ := hw.simulate (Behind.step hz hpq) ⟨hs, ht, h⟩
  have hafter := hs.after_run
  rw [run_eq_of_walks hw']
  have hrun := run_eq_self (next?_run (whole n) s)
  rw [← hrun]
  exact h'.toAlike.agrees_of_after hs' ht' hafter (h'.after ▸ hafter) r r'

end BehindComment

/-! ### Through the comment -/

namespace ScanState

variable {x y post : Text} {z : Char} {mode : Mode} {n k : Nat} {s t : ScanState}

/-- The place behind the first characters of a comment that begins here. -/
def inComment (s : ScanState) (mode : Mode) (k : Nat) : ScanState :=
  ((Move.enter mode [] 2).apply s).advance k

theorem InWhole.inComment (h : InWhole n s) : InWhole n (s.inComment mode k) :=
  (h.apply _).advance k

theorem after_inComment (mode : Mode) (x : Text) (ha : s.cursor.after = '/' :: z :: (x ++ post)) :
    (s.inComment mode x.length).cursor.after = post := by
  rw [inComment, after_advance, Move.cursor_apply, Cursor.after_skip, ha]
  exact List.drop_left

theorem before_inComment (mode : Mode) (x : Text) (ha : s.cursor.after = '/' :: z :: (x ++ post)) :
    (s.inComment mode x.length).cursor.before = x.reverse ++ z :: '/' :: s.cursor.before := by
  have hskip : (s.inComment mode x.length).cursor = (s.cursor.skip 2).skip x.length := rfl
  rw [hskip, Cursor.before_skip, Cursor.before_skip, Cursor.after_skip, ha]
  have htake : (('/' :: z :: (x ++ post)).drop 2).take x.length = x := List.take_left
  rw [htake]
  rfl

theorem moveAt_of_script {c : Char} {rest : Text} (hm : s.stack.mode = .normal)
    (hk : contextOf s.stack.frames = .script) :
    s.moveAt c rest =
      Move.inScript (whole 0) (expressionCanFollow s.cursor.before) c rest.head? rest := by
  unfold moveAt Move.next
  rw [hm]
  exact Move.outside_of_script hk

theorem InWhole.walks_inLineComment (h : InWhole n s) (hm : s.stack.mode = .normal)
    (hk : contextOf s.stack.frames = .script) (hx : '\n' ∉ x)
    (ha : s.cursor.after = '/' :: '/' :: (x ++ post)) :
    Walks (whole n) s (s.inComment .lineComment x.length) := by
  have hst : Steps (whole n) s ((Move.enter .lineComment [] 2).apply s) :=
    h.steps_of_moveAt ha (moveAt_of_script hm hk)
  have hafter : ((Move.enter .lineComment [] 2).apply s).cursor.after = x ++ post := by
    rw [Move.cursor_apply, Cursor.after_skip, ha]
    rfl
  exact .head hst ((h.apply _).walks_lineComment rfl hx hafter)

theorem InWhole.walks_inBlockComment (h : InWhole n s) (hm : s.stack.mode = .normal)
    (hk : contextOf s.stack.frames = .script) (hx : ¬ ['*', '/'] <:+: x ++ post.take 1)
    (ha : s.cursor.after = '/' :: '*' :: (x ++ post)) :
    Walks (whole n) s (s.inComment .blockComment x.length) := by
  have hst : Steps (whole n) s ((Move.enter .blockComment [] 2).apply s) :=
    h.steps_of_moveAt ha (moveAt_of_script hm hk)
  have hafter : ((Move.enter .blockComment [] 2).apply s).cursor.after = x ++ post := by
    rw [Move.cursor_apply, Cursor.after_skip, ha]
    rfl
  exact .head hst ((h.apply _).walks_blockComment rfl hx hafter)

theorem InWhole.steps_leaveLine {r : Text} (h : InWhole n s) (hm : s.stack.mode = .lineComment)
    (ha : s.cursor.after = ['\n'] ++ r) : Steps (whole n) s ((Move.leave 1).apply s) :=
  h.steps_of_moveAt ha (by simp [moveAt, Move.next, hm, Move.inLineComment])

theorem InWhole.steps_leaveBlock {r : Text} (h : InWhole n s) (hm : s.stack.mode = .blockComment)
    (ha : s.cursor.after = ['*', '/'] ++ r) : Steps (whole n) s ((Move.leave 2).apply s) :=
  h.steps_of_moveAt ha (by simp [moveAt, Move.next, hm, Move.inBlockComment])

end ScanState

section ThroughComment

variable {pre x y post r w : Text} {z : Char} {mode : Mode} {n : Nat} {s t : ScanState}

/-- Behind two comments of one length the places are alike again. -/
theorem Along.alike_inComment (mode : Mode) (hlen : x.length = y.length)
    (h : Along ['/', z] (x ++ post) (y ++ post) s t) :
    Alike (s.inComment mode x.length) (t.inComment mode y.length) := by
  have hleft : s.cursor.after = '/' :: z :: (x ++ post) := h.left
  have hright : t.cursor.after = '/' :: z :: (y ++ post) := h.right
  rw [← hlen]
  refine (h.toAlike.apply (m := .enter mode [] 2) ?_).apply (m := .pass x.length) ?_
  · rw [hleft, hright]
    simp [hlen]
  · rw [Move.cursor_apply, Move.cursor_apply, Cursor.after_skip, Cursor.after_skip, hleft,
      hright]
    simp [Move.length, hlen]

/-- The places of two scans behind the texts `x` and `y` of a comment, before the end of the
comment, if it has one. -/
structure Twins (x y post : Text) (z : Char) (mode : Mode) (n : Nat) (s t : ScanState) : Prop where
  left : InWhole n s
  right : InWhole n t
  alike : Alike s t
  mode : s.stack.mode = mode
  context : contextOf s.stack.frames = .script
  after_left : s.cursor.after = post
  after_right : t.cursor.after = post
  before : ∃ b, s.cursor.before = x.reverse ++ z :: '/' :: b ∧
    t.cursor.before = y.reverse ++ z :: '/' :: b

theorem length_comment (hlen : x.length = y.length) :
    (pre ++ '/' :: z :: (y ++ post)).length = (pre ++ '/' :: z :: (x ++ post)).length := by
  simp [hlen]

/-- If one of two scans comes to a comment, both come through it. -/
theorem exists_twins (hz : stopsLooking z = true) (hlen : x.length = y.length)
    (hx : ∀ {n s}, InWhole n s → s.stack.mode = .normal → contextOf s.stack.frames = .script →
      s.cursor.after = '/' :: z :: (x ++ post) → Walks (whole n) s (s.inComment mode x.length))
    (hy : ∀ {n s}, InWhole n s → s.stack.mode = .normal → contextOf s.stack.frames = .script →
      s.cursor.after = '/' :: z :: (y ++ post) → Walks (whole n) s (s.inComment mode y.length))
    (h : EntersAt (pre ++ '/' :: z :: (x ++ post)) pre.length) :
    ∃ n s t, Twins x y post z mode n s t ∧
      Scan.ofText (pre ++ '/' :: z :: (x ++ post)) = (run (whole n) s).outcome
        (pre ++ '/' :: z :: (x ++ post)) ∧
      Scan.ofText (pre ++ '/' :: z :: (y ++ post)) = (run (whole n) t).outcome
        (pre ++ '/' :: z :: (y ++ post)) := by
  obtain ⟨s, hs⟩ := h
  obtain ⟨t, ht, halong⟩ := hs.along (v := y ++ post) hz
  have htin := ht.inWhole
  rw [length_comment hlen] at htin
  refine ⟨(pre ++ '/' :: z :: (x ++ post)).length, s.inComment mode x.length,
    t.inComment mode y.length, ?_, ?_, ?_⟩
  · exact {
      left := hs.inWhole.inComment
      right := htin.inComment
      alike := halong.alike_inComment mode hlen
      mode := rfl
      context := hs.context
      after_left := after_inComment mode x halong.left
      after_right := after_inComment mode y halong.right
      before := ⟨s.cursor.before, before_inComment mode x halong.left,
        halong.before ▸ before_inComment mode y halong.right⟩ }
  · rw [← run_eq_of_walks (hx hs.inWhole hs.mode hs.context halong.left),
      ← run_eq_of_walks hs.walks]
    rfl
  · rw [← run_eq_of_walks (hy htin ht.mode ht.context halong.right), ← length_comment hlen,
      ← run_eq_of_walks ht.walks]
    rfl

/-- Behind the end `w` of a comment looking back passes nothing but the comment. -/
theorem Twins.leave (h : Twins x y (w ++ r) z mode n s t) :
    ∃ b, Behind (w.reverse ++ (x.reverse ++ z :: '/' :: b))
      (w.reverse ++ (y.reverse ++ z :: '/' :: b)) ((Move.leave w.length).apply s)
      ((Move.leave w.length).apply t) := by
  obtain ⟨b, hb, hb'⟩ := h.before
  have hafter : s.cursor.after = t.cursor.after := by rw [h.after_left, h.after_right]
  have htake : (w ++ r).take (Move.leave w.length).length = w := List.take_left
  refine ⟨b, h.alike.apply (by rw [hafter]), ?_, [], ?_, ?_⟩
  · rw [Move.cursor_apply, Move.cursor_apply, Cursor.after_skip, Cursor.after_skip, hafter]
  · rw [Move.cursor_apply, Cursor.before_skip, h.after_left, htake, hb, List.nil_append]
  · rw [Move.cursor_apply, Cursor.before_skip, h.after_right, htake, hb', List.nil_append]

end ThroughComment

/-! ### Comments in two runs -/

section TwoRuns

variable {pre x y post : Text}

/-- What stands in a comment that a star and a slash end makes no difference to a scan. -/
theorem agrees_of_blockComment (hlen : x.length = y.length)
    (hx : ¬ ['*', '/'] <:+: x) (hy : ¬ ['*', '/'] <:+: y)
    (hpost : post = [] ∨ ['*', '/'] <+: post)
    (h : EntersAt (pre ++ '/' :: '*' :: (x ++ post)) pre.length) :
    (Scan.ofText (pre ++ '/' :: '*' :: (x ++ post))).Agrees
      (Scan.ofText (pre ++ '/' :: '*' :: (y ++ post))) := by
  have hbody {w : Text} (hw : ¬ ['*', '/'] <:+: w) : ¬ ['*', '/'] <:+: w ++ post.take 1 := by
    rcases hpost with rfl | ⟨r, rfl⟩
    · rwa [List.take_nil, List.append_nil]
    · exact not_infix_concat_star hw
  obtain ⟨n, s, t, ht, hsx, hsy⟩ := exists_twins rfl hlen
    (fun hs hm hk => hs.walks_inBlockComment hm hk (hbody hx))
    (fun hs hm hk => hs.walks_inBlockComment hm hk (hbody hy)) h
  rw [hsx, hsy]
  rcases hpost with rfl | ⟨r, rfl⟩
  · exact ht.alike.agrees_of_after ht.left ht.right ht.after_left ht.after_right _ _
  · obtain ⟨b, hb⟩ := ht.leave
    rw [run_eq_of_steps (ht.left.steps_leaveBlock ht.mode ht.after_left),
      run_eq_of_steps (ht.right.steps_leaveBlock (ht.alike.stack ▸ ht.mode) ht.after_right)]
    exact hb.agrees (by decide) (expressionCanFollow_slash.trans expressionCanFollow_slash.symm)
      (ht.left.apply _) (ht.right.apply _) _ _

theorem exists_twins_lineComment (hlen : x.length = y.length) (hx : '\n' ∉ x) (hy : '\n' ∉ y)
    (h : EntersAt (pre ++ '/' :: '/' :: (x ++ post)) pre.length) :
    ∃ n s t, Twins x y post '/' .lineComment n s t ∧
      Scan.ofText (pre ++ '/' :: '/' :: (x ++ post)) = (run (whole n) s).outcome
        (pre ++ '/' :: '/' :: (x ++ post)) ∧
      Scan.ofText (pre ++ '/' :: '/' :: (y ++ post)) = (run (whole n) t).outcome
        (pre ++ '/' :: '/' :: (y ++ post)) :=
  exists_twins rfl hlen (fun hs hm hk => hs.walks_inLineComment hm hk hx)
    (fun hs hm hk => hs.walks_inLineComment hm hk hy) h

/-- What stands in a comment that ends with the line makes no difference to a scan as long as it
lets an expression follow or not. -/
theorem agrees_of_lineComment (hlen : x.length = y.length) (hx : '\n' ∉ x) (hy : '\n' ∉ y)
    (hopen : looksOpen x = looksOpen y) (hpost : post = [] ∨ ['\n'] <+: post)
    (h : EntersAt (pre ++ '/' :: '/' :: (x ++ post)) pre.length) :
    (Scan.ofText (pre ++ '/' :: '/' :: (x ++ post))).Agrees
      (Scan.ofText (pre ++ '/' :: '/' :: (y ++ post))) := by
  obtain ⟨n, s, t, ht, hsx, hsy⟩ := exists_twins_lineComment hlen hx hy h
  rw [hsx, hsy]
  rcases hpost with rfl | ⟨r, rfl⟩
  · exact ht.alike.agrees_of_after ht.left ht.right ht.after_left ht.after_right _ _
  · obtain ⟨b, hb⟩ := ht.leave
    rw [run_eq_of_steps (ht.left.steps_leaveLine ht.mode ht.after_left),
      run_eq_of_steps (ht.right.steps_leaveLine (ht.alike.stack ▸ ht.mode) ht.after_right)]
    have hback : expressionCanFollow ('\n' :: (x.reverse ++ '/' :: '/' :: b)) =
        expressionCanFollow ('\n' :: (y.reverse ++ '/' :: '/' :: b)) := by
      rw [expressionCanFollow_of_isBlank (by decide), expressionCanFollow_of_isBlank (by decide),
        expressionCanFollow_comment, expressionCanFollow_comment, hopen]
    exact hb.agrees (by decide) hback (ht.left.apply _) (ht.right.apply _) _ _

end TwoRuns

/-! ### Telling comments apart -/

namespace ScanState

variable {n : Nat} {s : ScanState}

/-- An element that shows whether an expression can follow. -/
def probe : Text := ['<', 'b', '>', '<', '/', 'b', '>']

/-- Where a walk comes to behind the probe: the frames are those before it, and `k` more issues
have been found. -/
structure Probed (n : Nat) (s : ScanState) (k : Nat) (s' : ScanState) : Prop where
  walks : Walks (whole n) s s'
  after : s'.cursor.after = []
  stack : s'.stack = s.stack
  issues : s'.issues.length = s.issues.length + k

theorem after_apply_of_after {m : Move} {a r : Text} (ha : s.cursor.after = a ++ r)
    (hl : m.length = a.length) : (m.apply s).cursor.after = r := by
  rw [Move.cursor_apply, Cursor.after_skip, ha, hl, List.drop_left]

/-- Where an expression can follow, the probe is an element. -/
theorem InWhole.exists_probed_of_open (h : InWhole n s) (hm : s.stack.mode = .normal)
    (hk : contextOf s.stack.frames = .script) (ha : s.cursor.after = probe)
    (hopen : expressionCanFollow s.cursor.before = true) : ∃ s', Probed n s 0 s' := by
  have h₁ := h.steps_of_moveAt (m := .openTag ['b'] .attrs 2) ha
    (by rw [moveAt_of_script hm hk, hopen]; rfl)
  have i₁ := h.apply (.openTag ['b'] .attrs 2)
  have a₁ := after_apply_of_after (m := .openTag ['b'] .attrs 2) (a := ['<', 'b']) ha rfl
  have f₁ : ((Move.openTag ['b'] .attrs 2).apply s).stack =
      { s.stack with frames := ⟨.tag, ['b'], s.cursor.pos, .attrs⟩ :: s.stack.frames } := rfl
  have e₁ : ((Move.openTag ['b'] .attrs 2).apply s).issues = s.issues := rfl
  generalize (Move.openTag ['b'] .attrs 2).apply s = s₁ at h₁ i₁ a₁ f₁ e₁
  have h₂ := i₁.steps_of_moveAt (m := .beginChildren) a₁ (by
    unfold moveAt Move.next
    rw [f₁, hm]
    rfl)
  have i₂ := i₁.apply .beginChildren
  have a₂ := after_apply_of_after (m := .beginChildren) (a := ['>']) a₁ rfl
  have f₂ : (Move.beginChildren.apply s₁).stack =
      { s.stack with frames := ⟨.tag, ['b'], s.cursor.pos, .children⟩ :: s.stack.frames } := by
    simp only [Move.apply, ScanState.advance, ScanState.beginChildren, f₁]
  have e₂ : (Move.beginChildren.apply s₁).issues.length = s.issues.length := by
    simp only [Move.apply, ScanState.advance, ScanState.beginChildren, f₁, e₁, List.length_map]
  generalize Move.beginChildren.apply s₁ = s₂ at h₂ i₂ a₂ f₂ e₂
  have h₃ := i₂.steps_of_moveAt (m := .closeTag ['b'] 4) a₂ (by
    unfold moveAt Move.next
    rw [f₂, hm]
    rfl)
  have a₃ := after_apply_of_after (m := .closeTag ['b'] 4) (a := ['<', '/', 'b', '>']) a₂ rfl
  refine ⟨_, ((Relation.ReflTransGen.single h₁).tail h₂).tail h₃, a₃, ?_, ?_⟩
  · simp [Move.apply, ScanState.advance, ScanState.closeTag, f₂, splitAtTag?]
  · simp [Move.apply, ScanState.advance, ScanState.closeTag, f₂, splitAtTag?, e₂]

theorem InWhole.exists_steps_pass (h : InWhole n s) {c : Char} {r : Text}
    (hm : s.stack.mode = .normal) (hk : contextOf s.stack.frames = .script)
    (ha : s.cursor.after = c :: r)
    (hpass : Move.inScript (whole 0) (expressionCanFollow s.cursor.before) c r.head? r = .pass 1) :
    ∃ s', Steps (whole n) s s' ∧ InWhole n s' ∧ s'.cursor.after = r ∧ s'.stack = s.stack ∧
      s'.issues = s.issues := by
  have hst := h.steps_of_moveAt (m := .pass 1) ha (by rw [moveAt_of_script hm hk, hpass])
  exact ⟨_, hst, h.apply _, after_apply_of_after (a := [c]) ha rfl, rfl, rfl⟩

/-- Elsewhere the probe is a closing tag without an opening one. -/
theorem InWhole.exists_probed_of_not_open (h : InWhole n s) (hm : s.stack.mode = .normal)
    (hk : contextOf s.stack.frames = .script) (ha : s.cursor.after = probe)
    (hopen : expressionCanFollow s.cursor.before = false) : ∃ s', Probed n s 1 s' := by
  obtain ⟨s₁, h₁, i₁, a₁, f₁, e₁⟩ := h.exists_steps_pass hm hk ha (by rw [hopen]; rfl)
  rw [← f₁] at hm hk
  obtain ⟨s₂, h₂, i₂, a₂, f₂, e₂⟩ := i₁.exists_steps_pass hm hk a₁ rfl
  rw [← f₂] at hm hk
  obtain ⟨s₃, h₃, i₃, a₃, f₃, e₃⟩ := i₂.exists_steps_pass hm hk a₂ rfl
  rw [← f₃] at hm hk
  have h₄ := i₃.steps_of_moveAt (m := .closeTag ['b'] 4) a₃
    (by rw [moveAt_of_script hm hk]; rfl)
  have a₄ := after_apply_of_after (m := .closeTag ['b'] 4) (a := ['<', '/', 'b', '>']) a₃ rfl
  rw [Move.apply, closeTag_of_script hk] at h₄ a₄
  refine ⟨_, (((Relation.ReflTransGen.single h₁).tail h₂).tail h₃).tail h₄, a₄, ?_, ?_⟩
  · exact f₃.trans (f₂.trans f₁)
  · rw [← e₁, ← e₂, ← e₃]
    rfl

/-- How many issues a scan finds whose rest is the probe. -/
theorem InWhole.length_issues_of_probe (h : InWhole n s) (hm : s.stack.mode = .normal)
    (hk : contextOf s.stack.frames = .script) (ha : s.cursor.after = probe) (t : Text) :
    ((run (whole n) s).outcome t).issues.length = s.issues.length +
      (if expressionCanFollow s.cursor.before then 0 else 1) + s.openFrames.length := by
  obtain ⟨s', hs'⟩ : ∃ s',
      Probed n s (if expressionCanFollow s.cursor.before then 0 else 1) s' := by
    cases hb : expressionCanFollow s.cursor.before with
    | true => exact h.exists_probed_of_open hm hk ha hb
    | false => exact h.exists_probed_of_not_open hm hk ha hb
  have hin := h.walks hs'.walks
  have hframes : s'.openFrames = s.openFrames := by rw [openFrames, openFrames, hs'.stack]
  rw [h.run_eq_of_after hs'.walks hs'.after, outcome, hin.closedAt?]
  simp [openText, hs'.stack, hm, hs'.issues, hframes]

/-- How many issues a scan finds whose rest is the end of a comment and the probe. -/
theorem InWhole.length_issues_of_comment {x b : Text} (h : InWhole n s)
    (hm : s.stack.mode = .lineComment) (hk : contextOf s.stack.frames = .script)
    (ha : s.cursor.after = ['\n'] ++ probe)
    (hb : s.cursor.before = x.reverse ++ '/' :: '/' :: b) (t : Text) :
    ((run (whole n) s).outcome t).issues.length =
      s.issues.length + (if looksOpen x then 0 else 1) + s.openFrames.length := by
  have hbefore : ((Move.leave 1).apply s).cursor.before =
      '\n' :: (x.reverse ++ '/' :: '/' :: b) := by
    rw [Move.cursor_apply, Cursor.before_skip, ha, hb]
    rfl
  rw [run_eq_of_steps (h.steps_leaveLine hm ha),
    (h.apply (.leave 1)).length_issues_of_probe rfl hk (after_apply_of_after ha rfl), hbefore,
    expressionCanFollow_of_isBlank (by decide), expressionCanFollow_comment]
  rfl

end ScanState

/-- Comments that end with the line, of which one lets an expression follow and the other does
not, are told apart by the probe on the next line. -/
theorem looksOpen_eq_of_agrees {pre x y : Text} (hlen : x.length = y.length) (hx : '\n' ∉ x)
    (hy : '\n' ∉ y) (h : EntersAt (pre ++ '/' :: '/' :: (x ++ (['\n'] ++ probe))) pre.length)
    (hag : (Scan.ofText (pre ++ '/' :: '/' :: (x ++ (['\n'] ++ probe)))).Agrees
      (Scan.ofText (pre ++ '/' :: '/' :: (y ++ (['\n'] ++ probe))))) :
    looksOpen x = looksOpen y := by
  obtain ⟨n, s, t, ht, hsx, hsy⟩ := exists_twins_lineComment hlen hx hy h
  obtain ⟨b, hs, ht'⟩ := ht.before
  have hframes : s.openFrames = t.openFrames := by rw [openFrames, openFrames, ht.alike.stack]
  have hcount := congrArg List.length hag.issues
  rw [hsx, hsy, List.length_map, List.length_map,
    ht.left.length_issues_of_comment ht.mode ht.context ht.after_left hs,
    ht.right.length_issues_of_comment (ht.alike.stack ▸ ht.mode) (ht.alike.stack ▸ ht.context)
      ht.after_right ht', ht.alike.issues, hframes] at hcount
  cases hox : looksOpen x <;> cases hoy : looksOpen y <;> simp [hox, hoy] at hcount ⊢

/-- What stands in a comment that a scan enters in script makes no difference to what is found, if
a star and a slash end the comment. If the comment ends with the line, it makes none to any text
that goes on with the comment if and only if what stands in its place lets an expression follow
just like it. -/
theorem comments_opaque_iff (pre : Text) {x y : Text} (hlen : x.length = y.length) :
    (∀ post : Text, ¬ ['*', '/'] <:+: x → ¬ ['*', '/'] <:+: y →
      (post = [] ∨ ['*', '/'] <+: post) →
      EntersAt (pre ++ '/' :: '*' :: (x ++ post)) pre.length →
      (Scan.ofText (pre ++ '/' :: '*' :: (x ++ post))).Agrees
        (Scan.ofText (pre ++ '/' :: '*' :: (y ++ post)))) ∧
    ∀ rest : Text, '\n' ∉ x → '\n' ∉ y →
      EntersAt (pre ++ '/' :: '/' :: (x ++ rest)) pre.length →
      ((∀ post, post = [] ∨ ['\n'] <+: post →
        (Scan.ofText (pre ++ '/' :: '/' :: (x ++ post))).Agrees
          (Scan.ofText (pre ++ '/' :: '/' :: (y ++ post)))) ↔ looksOpen x = looksOpen y) := by
  constructor
  · intro post hx hy hpost h
    exact agrees_of_blockComment hlen hx hy hpost h
  · intro rest hx hy h
    have enters (post : Text) : EntersAt (pre ++ '/' :: '/' :: (x ++ post)) pre.length := by
      obtain ⟨s, hs⟩ := h
      obtain ⟨t, ht, -⟩ := hs.along (z := '/') (v := x ++ post) rfl
      exact ⟨t, ht⟩
    constructor
    · intro hag
      exact looksOpen_eq_of_agrees hlen hx hy (enters _) (hag _ (.inr (List.prefix_append _ _)))
    · intro hopen post hpost
      exact agrees_of_lineComment hlen hx hy hopen hpost (enters post)

theorem comments_opaque_iff_parenthesis :
    (Scan.ofText "(/*a*/)".toList).Agrees (Scan.ofText "(/*)*/)".toList) ∧
    ¬ ∀ post : Text, post = [] ∨ ['\n'] <+: post →
      (Scan.ofText (['('] ++ '/' :: '/' :: ([' ', 'a'] ++ post))).Agrees
        (Scan.ofText (['('] ++ '/' :: '/' :: ([' ', '('] ++ post))) := by
  have enters (t : Text) : EntersAt ('(' :: t) 1 := by
    refine ⟨_, .single ((inWhole_start ('(' :: t)).steps_of_moveAt (m := .openBracket '(') rfl rfl),
      ?_, rfl, rfl⟩
    rfl
  constructor
  · exact (comments_opaque_iff ['('] (x := ['a']) (y := [')']) rfl).1 ['*', '/', ')'] (by decide)
      (by decide) (.inr (by decide)) (enters _)
  · rw [(comments_opaque_iff ['('] (x := [' ', 'a']) (y := [' ', '(']) rfl).2 [] (by decide)
      (by decide) (enters _)]
    decide

end SnippetGate
