import SnippetGate.Proofs.Balance.Closing

/-!
# Where a scan reads an offset

A scan of a text reads every character from the last of its places that is not behind it. In a
balanced text most of these places are excluded for a call: the scan cannot read a call among the
attributes of a tag, and from a place before the call it can only read it inside of a string.
-/

namespace SnippetGate

open Grammar

namespace Move

open ScanState

variable {n : Nat} {fs : List Frame} {b : Bool} {x : Char} {r : Text} {m : Move}

/-- How much of a text a move takes outside of strings and comments: a character, a sign of two
characters, a tag up to its attributes, or a closing tag. -/
inductive Takes (t : Text) (m : Move) : Prop
  | one : m.length ≤ 1 → Takes t m
  | two {x y : Char} {r : Text} :
      t = x :: y :: r → y = '/' ∨ y = '*' ∨ y = '>' → m.length = 2 → Takes t m
  | tag {name r : Text} :
      t = '<' :: (name ++ r) → IsTagName name → m = openTag name .attrs (name.length + 1) →
      Takes t m
  | closer {name piece r : Text} :
      t = piece ++ r → IsClosingTag name piece → m.length = piece.length → Takes t m

theorem takes_opening (h : r.head? = some '>' ∨ (tagName? r).isSome = true) :
    Takes ('<' :: r) (opening r) := by
  unfold opening
  split
  · next hgt =>
    obtain ⟨r, rfl⟩ := List.head?_eq_some_iff.mp hgt
    exact .two rfl (.inr (.inr rfl)) rfl
  · next hgt =>
    obtain ⟨name, hname⟩ := Option.isSome_iff_exists.mp (h.resolve_left hgt)
    obtain ⟨hn, q, rfl, -⟩ := tagName?_eq_some_iff.mp hname
    rw [hname]
    exact .tag rfl hn rfl

theorem takes_closing : Takes ('<' :: '/' :: r) (closing r) := by
  unfold closing
  split
  · next name k hq =>
    obtain ⟨rest, q, hr, rfl, rfl⟩ := closingTagRest?_eq_some_iff.mp hq
    have hpiece : '<' :: '/' :: (rest ++ q) = ('<' :: '/' :: rest) ++ q := rfl
    exact .closer hpiece ⟨rest, hr, rfl⟩ rfl
  · exact .one (Nat.le_refl 1)

/-- What is read after a `<` and a slash. -/
theorem takes_closing_of_head? (h : r.head? = some '/') : Takes ('<' :: r) (closing r.tail) := by
  obtain ⟨r, rfl⟩ := List.head?_eq_some_iff.mp h
  exact takes_closing

theorem takes_inMarkup : Takes (x :: r) (inMarkup x r.head? r) := by
  unfold inMarkup
  split
  · exact .one (Nat.le_refl 1)
  split
  · next hx =>
    subst hx
    split
    · next hs => exact takes_closing_of_head? hs
    split
    · next ho => exact takes_opening ho
    · exact .one (Nat.le_refl 1)
  · exact .one (Nat.le_refl 1)

/-- A sign of two characters. -/
theorem takes_two {y : Char} (hy : y = '/' ∨ y = '*' ∨ y = '>') (hr : r.head? = some y)
    (hm : m.length = 2) : Takes (x :: r) m := by
  obtain ⟨r, rfl⟩ := List.head?_eq_some_iff.mp hr
  exact .two rfl hy hm

theorem takes_inAttrs {top : Frame} : Takes (x :: r) (inAttrs (whole n) top x r.head?) := by
  unfold inAttrs
  split
  · exact .one (Nat.le_refl 1)
  split
  · exact .one (Nat.le_refl 1)
  split
  · next hs => exact takes_two (.inr (.inr rfl)) hs.2 rfl
  split
  · split
    · exact .one (Nat.le_refl 1)
    · exact .one (Nat.le_refl 1)
  split
  · exact .one (Nat.zero_le 1)
  split
  · exact .one (Nat.le_refl 1)
  · exact .one (Nat.le_refl 1)

theorem takes_inScript : Takes (x :: r) (inScript (whole n) b x r.head? r) := by
  unfold inScript
  split
  · exact .one (Nat.le_refl 1)
  split
  · next hs => exact takes_two (.inl rfl) hs.2 rfl
  split
  · next hs => exact takes_two (.inr (.inl rfl)) hs.2 rfl
  split
  · exact .one (Nat.le_refl 1)
  split
  · exact .one (Nat.le_refl 1)
  split
  · next hx =>
    obtain ⟨-, rfl⟩ := hx
    split
    · next hs => exact takes_closing_of_head? hs
    split
    · next ho => exact takes_opening ho.1
    · exact .one (Nat.le_refl 1)
  · exact .one (Nat.le_refl 1)

theorem takes_outside : Takes (x :: r) (outside (whole n) fs b x r.head? r) := by
  cases hk : contextOf fs with
  | script => rw [outside_of_script hk]; exact takes_inScript
  | attrs =>
    obtain ⟨f, gs, rfl, hf⟩ := exists_of_attrs hk
    rw [outside_of_attrs hf]
    exact takes_inAttrs
  | markup => rw [outside_of_markup hk]; exact takes_inMarkup

end Move

namespace ScanState

variable {t : Text} {p n : Nat} {s s' u : ScanState} {c d : Cursor} {f : Frame} {fs : List Frame}

theorem Walks.pos_le (h : Walks (whole n) s u) (hs : InWhole n s) :
    s.cursor.pos ≤ u.cursor.pos := by
  have both := h.keeps (P := fun v => InWhole n v ∧ s.cursor.pos ≤ v.cursor.pos)
    (fun hst hv => by
      obtain ⟨x, rest, -, rfl⟩ := hv.1.steps hst
      refine ⟨hv.1.apply _, hv.2.trans ?_⟩
      rw [Move.cursor_apply]
      exact Cursor.pos_le_pos_skip _ _)
    ⟨hs, Nat.le_refl _⟩
  exact both.2

/-- The place from which the scan of a text reads the character at offset `p`: the last one that is
not behind it. -/
structure ReadAt (t : Text) (p : Nat) (s : ScanState) : Prop where
  walks : Walks (whole t.length) (Scan.start t 0) s
  le : s.cursor.pos ≤ p
  last : ∀ u, Steps (whole t.length) s u → p < u.cursor.pos

theorem ReadAt.inWhole (h : ReadAt t p s) : InWhole t.length s := (inWhole_start t).walks h.walks

theorem exists_readAt (t : Text) (p : Nat) : ∃ s, ReadAt t p s := by
  have hend := next?_run (whole t.length) (Scan.start t 0)
  have hrun := walks_run (whole t.length) (Scan.start t 0)
  generalize run (whole t.length) (Scan.start t 0) = e at hend hrun
  have key : ∀ s, Walks (whole t.length) s e → Walks (whole t.length) (Scan.start t 0) s →
      s.cursor.pos ≤ p → ∃ s, ReadAt t p s := by
    intro s hse
    induction hse using Relation.ReflTransGen.head_induction_on with
    | refl => exact fun hs hle => ⟨e, hs, hle, fun u hu => by simp [Steps, hend] at hu⟩
    | @head s u hst _ ih =>
      intro hs hle
      by_cases hu : u.cursor.pos ≤ p
      · exact ih (hs.tail hst) hu
      · refine ⟨s, hs, hle, fun v hv => ?_⟩
        obtain rfl := Option.some.inj (hst.symm.trans hv)
        exact Nat.lt_of_not_le hu
  exact key _ hrun .refl (Nat.zero_le p)

/-- A character is read from one place only. -/
theorem ReadAt.eq (h : ReadAt t p s) (h' : ReadAt t p s') : s = s' := by
  have same {s s' : ScanState} (h : ReadAt t p s) (h' : ReadAt t p s')
      (hw : Walks (whole t.length) s s') : s = s' := by
    rcases Relation.ReflTransGen.cases_head hw with rfl | ⟨u, hst, hw⟩
    · rfl
    · have hle := Walks.pos_le hw (h.inWhole.walks (.single hst))
      exact absurd (h.last u hst) (Nat.not_lt.mpr (hle.trans h'.le))
  rcases h.walks.total h'.walks with hw | hw
  · exact same h h' hw
  · exact (same h' h hw).symm

/-! ### Scans of balanced texts -/

/-- The scan of a balanced text ends with nothing open and nothing wrong. -/
theorem end_of_isBalanced (h : (Scan.ofText t).isBalanced = true) :
    ∃ e, Walks (whole t.length) (Scan.start t 0) e ∧ e.cursor.after = [] ∧ e.issues = [] ∧
      (e.stack.mode = .normal ∨ e.stack.mode = .lineComment) ∧ e.stack.frames = [] := by
  obtain ⟨-, hafter, hin⟩ := run_whole (P := fun _ => True) (inWhole_start t) trivial
    fun _ _ _ => trivial
  refine ⟨_, walks_run _ _, hafter, ?_⟩
  exact of_isBalanced_outcome hin.closedAt? h

theorem Walks.issues_ne_nil (hw : Walks (whole n) s u) (hs : InWhole n s) (h : s.issues ≠ []) :
    u.issues ≠ [] := by
  have both := hw.keeps (P := fun v => InWhole n v ∧ v.issues ≠ []) (fun hst hv => by
    obtain ⟨x, rest, -, rfl⟩ := hv.1.steps hst
    exact ⟨hv.1.apply _, issues_apply_ne_nil hv.2 _⟩) ⟨hs, h⟩
  exact both.2

/-- On the way through a balanced text nothing is wrong, and nothing stays open to its end. -/
theorem clean_of_isBalanced (h : (Scan.ofText t).isBalanced = true)
    (hw : Walks (whole t.length) (Scan.start t 0) s) :
    s.issues = [] ∧ ∃ e, Walks (whole t.length) s e ∧ e.cursor.after = [] ∧
      (e.stack.mode = .normal ∨ e.stack.mode = .lineComment) ∧ e.stack.frames = [] := by
  obtain ⟨e, hwe, hafter, hissues, hmode, hframes⟩ := end_of_isBalanced h
  have hin := (inWhole_start t).walks hw
  have hin' := (inWhole_start t).walks hwe
  have hse : Walks (whole t.length) s e := by
    rcases hw.total hwe with hw' | hw'
    · exact hw'
    · obtain rfl := hin'.eq_of_walks hafter hw'
      exact .refl
  refine ⟨?_, e, hse, hafter, hmode, hframes⟩
  by_contra hne
  exact hse.issues_ne_nil hin hne hissues

/-- Where all that is left of a balanced text goes on under the same frames, none is open. -/
theorem frames_eq_nil_of_settles (h : (Scan.ofText t).isBalanced = true)
    (hw : Walks (whole t.length) (Scan.start t 0) (clear c fs))
    (hs : Settles t.length c d fs) (hd : d.after = []) : fs = [] := by
  obtain ⟨s, hws, hs⟩ := hs
  obtain ⟨-, e, hse, -, -, hframes⟩ := clean_of_isBalanced h (hw.trans hws)
  have hin := (inWhole_start t).walks (hw.trans hws)
  have hafter : s.cursor.after = [] := by cases hs <;> exact hd
  obtain rfl := hin.eq_of_walks hafter hse
  cases hs <;> exact hframes

/-- A string whose quote does not come any more does not end. -/
theorem Walks.string (hw : Walks (whole n) s u) (hs : InWhole n s) (hm : s.stack.mode = .string)
    (hq : ∀ x ∈ s.cursor.after, s.stack.quote ≠ [x]) : u.stack.mode = .string := by
  have all := hw.keeps (P := fun v => InWhole n v ∧ v.stack.mode = .string ∧
    ∀ x ∈ v.cursor.after, v.stack.quote ≠ [x]) (fun {s u} hst ⟨hin, hm, hq⟩ => by
      obtain ⟨x, rest, ha, rfl⟩ := hin.steps hst
      have hpass : ∃ k, s.moveAt x rest = .pass k := by
        have hx := hq x (ha ▸ List.mem_cons_self)
        simp only [moveAt, Move.next, hm, Move.inString, hx, if_false]
        split
        · exact ⟨_, rfl⟩
        · exact ⟨_, rfl⟩
      obtain ⟨k, hk⟩ := hpass
      rw [hk]
      refine ⟨hin.advance k, hm, fun y hy => hq y ?_⟩
      rw [Move.apply, after_advance] at hy
      exact List.mem_of_mem_drop hy) ⟨hs, hm, hq⟩
  exact all.2.1

/-- A comment whose star does not come any more does not end. -/
theorem Walks.blockComment (hw : Walks (whole n) s u) (hs : InWhole n s)
    (hm : s.stack.mode = .blockComment) (hstar : '*' ∉ s.cursor.after) :
    u.stack.mode = .blockComment := by
  have all := hw.keeps (P := fun v => InWhole n v ∧ v.stack.mode = .blockComment ∧
    '*' ∉ v.cursor.after) (fun {s u} hst ⟨hin, hm, hstar⟩ => by
      obtain ⟨x, rest, ha, rfl⟩ := hin.steps hst
      have hx : x ≠ '*' := fun hx => hstar (by rw [ha, hx]; exact List.mem_cons_self)
      have hpass : s.moveAt x rest = .pass 1 := by
        simp [moveAt, Move.next, hm, Move.inBlockComment, hx]
      rw [hpass]
      refine ⟨hin.advance 1, hm, fun hy => hstar ?_⟩
      rw [Move.apply, after_advance] at hy
      exact List.mem_of_mem_drop hy) ⟨hs, hm, hstar⟩
  exact all.2.1

theorem after_eq_drop (hw : Walks (whole t.length) (Scan.start t 0) s) :
    s.cursor.after = t.drop s.cursor.pos := by
  have both := hw.keeps (P := fun v => InWhole t.length v ∧ v.cursor.after = t.drop v.cursor.pos)
    (fun hst hv => by
      obtain ⟨x, rest, -, rfl⟩ := hv.1.steps hst
      refine ⟨hv.1.apply _, ?_⟩
      rw [Move.cursor_apply]
      exact Cursor.after_skip_eq_drop hv.2 _) ⟨inWhole_start t, rfl⟩
  exact both.2

/-! ### Calls in balanced texts -/

/-- The text begins with a call: a word, a parenthesis, and behind blanks the `<` of an argument or
the closing parenthesis. -/
def BeginsWithCall (t : Text) : Prop :=
  ∃ a b z r, t = a ++ '(' :: (b ++ z :: r) ∧ a ≠ [] ∧ (∀ x ∈ a, isInert x = true ∧ x ≠ '*') ∧
    (∀ x ∈ b, isBlank x = true) ∧ (z = '<' ∨ z = ')')

variable {a b r w piece : Text} {z : Char}

/-- A parenthesis among the attributes of a tag, and then a `<` or the closing parenthesis, are not
read without complaint. -/
theorem exists_faulty_of_attrs (fs : List Frame) (hk : f.context = .attrs) (hn : c.stop = n)
    (hc : c.after = a ++ '(' :: (b ++ z :: r)) (ha : ∀ x ∈ a, isInert x = true)
    (hb : ∀ x ∈ b, isBlank x = true) (hz : z = '<' ∨ z = ')') :
    ∃ u, Walks (whole n) (clear c (f :: fs)) u ∧ u.issues ≠ [] := by
  have ho : c.Over (a ++ (['('] ++ b)) (c.skip (a ++ (['('] ++ b)).length) :=
    Cursor.over_skip (r := z :: r) (by rw [hc]; simp)
  generalize c.skip (a ++ (['('] ++ b)).length = d at ho
  have hd : d.after = z :: r := by
    have := ho.after
    rw [hc] at this
    simpa [eq_comm] using this
  obtain ⟨c₁, h₁, ho⟩ := ho.split
  obtain ⟨c₂, h₂, ho⟩ := ho.split
  have hparen : IsPlain .attrs c₁.before '(' c₂.after := ⟨by decide, nofun⟩
  have hreads : Reads .attrs c d := reads_inert
    ((reads_inert (.nil .attrs c) ha h₁).plain h₂ hparen)
    (fun x hx => isInert_of_isBlank (hb x hx)) ho
  have hw := (settles_of_reads hreads (f :: fs) hk hn).walks (by simp [hd])
  have hst := steps_clear (f :: fs) (hreads.stop.trans hn) hd
  rw [Move.outside_of_attrs hk] at hst
  refine ⟨_, hw.tail hst, ?_⟩
  rcases hz with rfl | rfl
  · exact List.cons_ne_nil _ _
  · exact List.cons_ne_nil _ _

/-- A piece without a parenthesis that covers the beginning of a call ends inside of its word. -/
theorem exists_of_covers {g q v : Text} (h : g ++ (a ++ '(' :: w) = q ++ v)
    (hlen : g.length < q.length) (hp : '(' ∉ q) :
    ∃ q' a', q = g ++ q' ∧ q' ≠ [] ∧ a = q' ++ a' ∧ v = a' ++ '(' :: w := by
  rcases List.append_eq_append_iff.mp h with ⟨q', rfl, he⟩ | ⟨q', rfl, -⟩
  · have hne : q' ≠ [] := by
      rintro rfl
      simp at hlen
    rcases List.append_eq_append_iff.mp he with ⟨y, rfl, hy⟩ | ⟨a', ha, hv⟩
    · cases y with
      | nil => exact ⟨a, [], by simp, by simpa using hne, by simp, by simpa using hy.symm⟩
      | cons z y =>
        obtain rfl : '(' = z := (List.cons.inj hy).1
        exact absurd (by simp) hp
    · exact ⟨q', a', rfl, hne, ha, hv⟩
  · rw [List.length_append] at hlen
    omega

/-- The only move that leads from before a call into it is that of an opening tag whose name ends
inside of the word of the call. -/
theorem exists_tag_of_takes {g : Text} {m : Move} (h : m.Takes (g ++ (a ++ '(' :: w)))
    (hg : g ≠ []) (hlen : g.length < m.length) (hne : a ≠ [])
    (ha : ∀ x ∈ a, isInert x = true ∧ x ≠ '*') :
    ∃ name a', m = .openTag name .attrs (name.length + 1) ∧ a' ⊆ a ∧
      g ++ (a ++ '(' :: w) = '<' :: name ++ (a' ++ '(' :: w) := by
  have hpos := List.length_pos_iff.mpr hg
  cases h with
  | one hm => omega
  | @two x y q he hy hm =>
    obtain ⟨z', rfl⟩ := List.length_eq_one_iff.mp (show g.length = 1 by omega)
    obtain ⟨y', a', rfl⟩ := List.exists_cons_of_ne_nil hne
    obtain rfl : y' = y := (List.cons.inj (List.cons.inj he).2).1
    obtain ⟨hin, hstar⟩ := ha y' List.mem_cons_self
    rcases hy with rfl | rfl | rfl
    · exact absurd hin (by decide)
    · exact absurd rfl hstar
    · exact absurd hin (by decide)
  | @tag name v he hname hm =>
    subst hm
    have hparen : '(' ∉ '<' :: name := by simpa using hname.not_mem_paren
    obtain ⟨q', a', -, -, rfl, rfl⟩ := exists_of_covers (q := '<' :: name) he hlen hparen
    exact ⟨name, a', rfl, List.subset_append_right _ _, he⟩
  | @closer name piece v he hpiece hm =>
    obtain ⟨q', a', hq, hne', rfl, -⟩ := exists_of_covers he (hm ▸ hlen) hpiece.not_mem_paren
    have hlast := hpiece.getLast?
    rw [hq, List.getLast?_append_of_ne_nil _ hne'] at hlast
    have hgt := ha '>' (List.mem_append_left _ (List.mem_of_getLast? hlast))
    exact absurd hgt.1 (by decide)

/-- What stands between the place from which an offset is read and the offset. -/
theorem ReadAt.exists_append (h : ReadAt t p s) (hp : p < t.length) :
    ∃ g, s.cursor.after = g ++ t.drop p ∧ s.cursor.pos + g.length = p := by
  have hle := h.le
  refine ⟨(t.drop s.cursor.pos).take (p - s.cursor.pos), ?_, ?_⟩
  · have hsub : t.drop p = (t.drop s.cursor.pos).drop (p - s.cursor.pos) := by
      rw [List.drop_drop, Nat.add_sub_cancel' hle]
    rw [after_eq_drop h.walks, hsub, List.take_append_drop]
  · rw [List.length_take, List.length_drop]
    omega

/-- The step from the place at which an offset is read goes on past the offset. -/
theorem ReadAt.exists_move (h : ReadAt t p s) (hp : p < t.length) :
    ∃ x rest, s.cursor.after = x :: rest ∧
      Steps (whole t.length) s ((s.moveAt x rest).apply s) ∧
      p < s.cursor.pos + (s.moveAt x rest).length := by
  obtain ⟨g, hg, -⟩ := h.exists_append hp
  have hne : s.cursor.after ≠ [] := by simp [hg, List.drop_eq_nil_iff, hp]
  obtain ⟨x, rest, hx⟩ := List.exists_cons_of_ne_nil hne
  have hst := h.inWhole.steps_moveAt hx
  have hover := h.last _ hst
  rw [Move.cursor_apply, Cursor.pos_skip] at hover
  exact ⟨x, rest, hx, hst, by omega⟩

/-- Outside of strings and comments a call in a balanced text is read from the place where it
begins, and never among the attributes of a tag. -/
theorem ReadAt.of_call_of_clear (h : (Scan.ofText t).isBalanced = true)
    (hs : ReadAt t p (clear c fs)) (hcall : BeginsWithCall (t.drop p)) :
    c.pos = p ∧ contextOf fs ≠ .attrs := by
  obtain ⟨a, b, z, r, hdrop, hne, ha, hb, hz⟩ := hcall
  have hp : p < t.length := by
    by_contra hge
    simp [List.drop_eq_nil_of_le (Nat.le_of_not_lt hge)] at hdrop
  have hn : c.stop = t.length := hs.inWhole.stop
  have clean {u : ScanState} (hu : Walks (whole t.length) (clear c fs) u) : u.issues = [] :=
    (clean_of_isBalanced h (hs.walks.trans hu)).1
  obtain ⟨g, hg, hlen⟩ := hs.exists_append hp
  rw [hdrop] at hg
  by_cases hnil : g = []
  · subst hnil
    refine ⟨hlen, fun hk => ?_⟩
    obtain ⟨f, gs, rfl, hf⟩ := Move.exists_of_attrs hk
    obtain ⟨u, hu, hfaulty⟩ := exists_faulty_of_attrs gs hf hn hg (fun x hx => (ha x hx).1) hb hz
    exact absurd (clean hu) hfaulty
  · exfalso
    obtain ⟨x, rest, hx, hst, hover⟩ := hs.exists_move hp
    have htakes : ((clear c fs).moveAt x rest).Takes (x :: rest) := Move.takes_outside
    rw [← hx, hg] at htakes
    obtain ⟨name, a', hm, hsub, he⟩ :=
      exists_tag_of_takes htakes hnil (by omega) hne ha
    rw [hm] at hst
    have hd : (c.skip (name.length + 1)).after = a' ++ '(' :: (b ++ z :: r) := by
      have hc : c.after = '<' :: name ++ (a' ++ '(' :: (b ++ z :: r)) := hg.trans he
      rw [Cursor.after_skip, hc, ← List.length_cons, List.drop_left]
    obtain ⟨u, hu, hfaulty⟩ := exists_faulty_of_attrs (f := ⟨.tag, name, c.pos, .attrs⟩) fs
      rfl ((Cursor.stop_skip _ c).trans hn) hd (fun y hy => (ha y (hsub hy)).1) hb hz
    exact absurd (clean (.head hst hu)) hfaulty

/-- A call in a balanced text is read from the place where it begins, or inside of a string, and
never among the attributes of a tag. -/
theorem ReadAt.of_call (h : (Scan.ofText t).isBalanced = true) (hs : ReadAt t p s)
    (hcall : BeginsWithCall (t.drop p)) :
    (s.cursor.pos = p ∨ s.stack.mode = .string) ∧
      ¬ (s.stack.mode = .normal ∧ contextOf s.stack.frames = .attrs) := by
  have hu : Understood (.ofText t) s :=
    Understood.walks (.clear Opened.nil.parsed) (inWhole_start t) hs.walks
  have hissues := (clean_of_isBalanced h hs.walks).1
  have hp : p < t.length := by
    by_contra hge
    obtain ⟨a, b, z, r, hdrop, -⟩ := hcall
    simp [List.drop_eq_nil_of_le (Nat.le_of_not_lt hge)] at hdrop
  have hle := hs.le
  cases hu with
  | clear hparsed =>
    obtain ⟨hpos, hk⟩ := hs.of_call_of_clear h hcall
    exact ⟨.inl hpos, fun hx => hk hx.2⟩
  | string => exact ⟨.inr rfl, nofun⟩
  | cutString => exact ⟨.inr rfl, nofun⟩
  | @lineComment fs c d body start =>
    obtain ⟨x, rest, -, -, hover⟩ := hs.exists_move hp
    have hm : (Move.inLineComment x).length ≤ 1 := by
      unfold Move.inLineComment
      split <;> exact Nat.le_refl 1
    have hm' : p < d.pos + (Move.inLineComment x).length := hover
    refine ⟨.inl ?_, nofun⟩
    change d.pos ≤ p at hle
    change d.pos = p
    omega
  | @blockComment fs c d body start =>
    refine ⟨.inl ?_, nofun⟩
    obtain ⟨g, hg, hlen⟩ := hs.exists_append hp
    obtain ⟨x, rest, hx, -, hover⟩ := hs.exists_move hp
    change p < d.pos + (Move.inBlockComment x rest.head?).length at hover
    change d.pos + g.length = p at hlen
    change d.pos = p
    unfold Move.inBlockComment at hover
    split at hover
    · next hend =>
      -- No call begins with the slash that ends the comment.
      obtain ⟨a, b, z, r, hdrop, hne, ha, -⟩ := hcall
      have hshort : ¬ g.length = 1 := by
        intro hone
        obtain ⟨y, rfl⟩ := List.length_eq_one_iff.mp hone
        obtain ⟨w, a, rfl⟩ := List.exists_cons_of_ne_nil hne
        have hrest : rest = w :: (a ++ '(' :: (b ++ z :: r)) :=
          (List.cons.inj (hx.symm.trans (hg.trans (by rw [hdrop]; rfl)))).2
        obtain rfl : w = '/' := by simpa [hrest] using hend.2
        exact absurd (ha '/' List.mem_cons_self).1 (by decide)
      simp only [Move.length] at hover
      omega
    · simp only [Move.length] at hover
      omega
  | faulty hne => exact absurd hissues hne

end ScanState

end SnippetGate
