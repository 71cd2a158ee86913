import SnippetGate.Proofs.Balance.Arrival
import SnippetGate.Proofs.Balance.ReadAt

/-!
# Places that both scans come to

A move that ends inside of a text looks at nothing behind the text. So where the scans of two texts
both come to the place up to which the texts agree, they come to it in the same state, whatever the
texts go on with.
-/

namespace SnippetGate

open ScanState

/-! ### Moves that end inside of a text -/

namespace Move

variable {o : ScanOptions} {stack : BracketStack} {b : Bool} {x : Char} {k v : Text}

theorem takeWhile_append_of_length_le {p : Char → Bool}
    (h : ((k ++ v).takeWhile p).length ≤ k.length) : (k ++ v).takeWhile p = k.takeWhile p := by
  rw [List.takeWhile_append] at h ⊢
  split
  · next hall =>
    rw [if_pos hall, List.length_append] at h
    have hnil : v.takeWhile p = [] := List.eq_nil_of_length_eq_zero (by omega)
    rw [hnil, List.append_nil]
    exact ((List.takeWhile_prefix p).eq_of_length hall).symm
  · rfl

theorem tagName?_append_of_length_le {name : Text} (hk : k ≠ [])
    (h : tagName? (k ++ v) = some name) (hle : name.length ≤ k.length) :
    tagName? k = some name := by
  obtain ⟨y, r, rfl⟩ := List.exists_cons_of_ne_nil hk
  rw [List.cons_append, tagName?] at h
  rw [tagName?]
  split at h
  · next hy =>
    obtain rfl := Option.some.inj h
    rw [if_pos hy, takeWhile_append_of_length_le (by simpa using hle)]
  · cases h

theorem isSome_tagName?_append (hk : k ≠ []) :
    (tagName? (k ++ v)).isSome = (tagName? k).isSome := by
  obtain ⟨y, r, rfl⟩ := List.exists_cons_of_ne_nil hk
  rw [List.cons_append, tagName?, tagName?]
  split <;> rfl

/-- An opening tag that ends inside of a text. -/
theorem opening_append_of_length_le (hk : k ≠ [])
    (ho : (k ++ v).head? = some '>' ∨ (tagName? (k ++ v)).isSome = true)
    (h : (opening (k ++ v)).length ≤ k.length + 1) : opening (k ++ v) = opening k := by
  unfold opening at h ⊢
  rw [List.head?_append_of_ne_nil _ hk] at ho h ⊢
  split
  · rfl
  · next hgt =>
    obtain ⟨name, hname⟩ := Option.isSome_iff_exists.mp (ho.resolve_left hgt)
    rw [if_neg hgt, hname] at h
    rw [hname, tagName?_append_of_length_le hk hname (by simpa [length] using h)]

/-- A closing tag that ends inside of a text, or is none. -/
theorem closing_append_of_length_le (h : (closing (k ++ v)).length ≤ k.length + 2) :
    closing (k ++ v) = closing k := by
  have hsome {name : Text} {n : Nat} (hn : closingTagRest? (k ++ v) = some (name, n))
      (hle : n ≤ k.length) : closingTagRest? k = some (name, n) := by
    obtain ⟨piece, r, hpiece, he, rfl⟩ := closingTagRest?_eq_some_iff.mp hn
    obtain ⟨q, rfl⟩ : piece <+: k :=
      List.prefix_of_prefix_length_le ⟨r, he.symm⟩ (List.prefix_append k v) hle
    exact closingTagRest?_eq_some_iff.mpr ⟨piece, q, hpiece, rfl, rfl⟩
  unfold closing at h ⊢
  cases hn : closingTagRest? (k ++ v) with
  | some p =>
    obtain ⟨name, n⟩ := p
    rw [hn] at h
    rw [hsome hn (by simpa [length] using h)]
  | none =>
    cases hk : closingTagRest? k with
    | none => rfl
    | some p =>
      obtain ⟨name, n⟩ := p
      obtain ⟨piece, r, hpiece, rfl, rfl⟩ := closingTagRest?_eq_some_iff.mp hk
      have hwhole : closingTagRest? (piece ++ r ++ v) = some (name, piece.length) :=
        closingTagRest?_eq_some_iff.mpr ⟨piece, r ++ v, hpiece, List.append_assoc _ _ _, rfl⟩
      rw [hwhole] at hn
      cases hn

theorem inScript_lt {y : Option Char} {rest : Text} : inScript (whole 0) b '<' y rest =
    if y = some '/' then closing rest.tail
    else if (rest.head? = some '>' ∨ (tagName? rest).isSome = true) ∧ b = true then opening rest
    else pass 1 := rfl

/-- Where script is invited, a `<` is read in it as it is in markup. -/
theorem inMarkup_lt {rest : Text} :
    inMarkup '<' rest.head? rest = inScript (whole 0) true '<' rest.head? rest := by
  simp [inMarkup, inScript_lt]

theorem inScript_of_ne_lt {y : Option Char} {rest : Text} (hx : x ≠ '<') :
    inScript (whole 0) b x y rest = inScript (whole 0) b x y [] := by
  simp [inScript, hx]

theorem one_lt_length_opening {rest : Text}
    (ho : rest.head? = some '>' ∨ (tagName? rest).isSome = true) : 1 < (opening rest).length := by
  unfold opening
  split
  · exact Nat.one_lt_two
  · next hgt =>
    obtain ⟨name, hname⟩ := Option.isSome_iff_exists.mp (ho.resolve_left hgt)
    obtain ⟨⟨y, r, rfl, -⟩, -⟩ := tagName?_eq_some_iff.mp hname
    simp [length, hname]

theorem closing_of_length_le_one {rest : Text} (h : (closing rest).length ≤ 1) :
    closing rest = pass 1 := by
  unfold closing at h ⊢
  split
  · next hn =>
    rw [hn] at h
    simp [length] at h
  · rfl

/-- A move of one character in script looks at no other. -/
theorem inScript_of_length_le_one (h : (inScript (whole 0) b x v.head? v).length ≤ 1) :
    inScript (whole 0) b x v.head? v = inScript (whole 0) b x none [] := by
  by_cases hx : x = '<'
  · subst hx
    have hend : inScript (whole 0) b '<' none [] = pass 1 := by simp [inScript_lt, tagName?]
    rw [inScript_lt] at h
    rw [hend, inScript_lt]
    split at h
    · next hs => rw [if_pos hs, closing_of_length_le_one h]
    · next hs =>
      split at h
      · next ho => exact absurd h (Nat.not_le.mpr (one_lt_length_opening ho.1))
      · next ho => rw [if_neg hs, if_neg ho]
  · rw [inScript_of_ne_lt hx] at h ⊢
    have hline : ¬ (x = '/' ∧ v.head? = some '/') := by
      rintro ⟨rfl, hv⟩
      rw [hv] at h
      exact absurd (show 2 ≤ 1 from h) (by decide)
    have hblock : ¬ (x = '/' ∧ v.head? = some '*') := by
      rintro ⟨rfl, hv⟩
      rw [hv] at h
      exact absurd (show 2 ≤ 1 from h) (by decide)
    simp [inScript, hx, hline, hblock]

theorem inScript_append_of_length_le
    (h : (inScript (whole 0) b x (k ++ v).head? (k ++ v)).length ≤ k.length + 1) :
    inScript (whole 0) b x (k ++ v).head? (k ++ v) = inScript (whole 0) b x k.head? k := by
  by_cases hk : k = []
  · subst hk
    exact inScript_of_length_le_one h
  rw [List.head?_append_of_ne_nil _ hk] at h ⊢
  by_cases hx : x = '<'
  · subst hx
    rw [inScript_lt, List.head?_append_of_ne_nil _ hk, isSome_tagName?_append hk] at h
    rw [inScript_lt, inScript_lt, List.head?_append_of_ne_nil _ hk, isSome_tagName?_append hk]
    split at h
    · next hs =>
      obtain ⟨k, rfl⟩ := List.head?_eq_some_iff.mp hs
      rw [if_pos hs, if_pos hs]
      exact closing_append_of_length_le h
    · next hs =>
      rw [if_neg hs, if_neg hs]
      split at h
      · next ho =>
        rw [if_pos ho, if_pos ho]
        refine opening_append_of_length_le hk ?_ h
        rw [List.head?_append_of_ne_nil _ hk, isSome_tagName?_append hk]
        exact ho.1
      · next ho => rw [if_neg ho, if_neg ho]
  · rw [inScript_of_ne_lt hx]
    exact (inScript_of_ne_lt hx).symm

theorem inMarkup_append_of_length_le
    (h : (inMarkup x (k ++ v).head? (k ++ v)).length ≤ k.length + 1) :
    inMarkup x (k ++ v).head? (k ++ v) = inMarkup x k.head? k := by
  by_cases hx : x = '<'
  · subst hx
    rw [inMarkup_lt] at h
    rw [inMarkup_lt, inMarkup_lt, inScript_append_of_length_le h]
  · simp [inMarkup, hx]

theorem inAttrs_append_of_length_le {top : Frame}
    (h : (inAttrs (whole 0) top x (k ++ v).head?).length ≤ k.length + 1) :
    inAttrs (whole 0) top x (k ++ v).head? = inAttrs (whole 0) top x k.head? := by
  cases k with
  | cons y k => rfl
  | nil =>
    by_cases hend : x = '/' ∧ v.head? = some '>'
    · obtain ⟨rfl, hv⟩ := hend
      rw [List.nil_append, hv] at h
      exact absurd (show 2 ≤ 1 from h) (by decide)
    · unfold inAttrs
      rw [List.nil_append, if_neg hend, List.head?_nil,
        if_neg (c := x = '/' ∧ none = some '>') nofun]

theorem inBlockComment_append_of_length_le
    (h : (inBlockComment x (k ++ v).head?).length ≤ k.length + 1) :
    inBlockComment x (k ++ v).head? = inBlockComment x k.head? := by
  cases k with
  | cons y k => rfl
  | nil =>
    unfold inBlockComment at h ⊢
    split at h
    · exact absurd h (by decide)
    · next hend => rw [if_neg hend, if_neg (by simp)]

/-- What follows a text makes no difference to a move that ends inside of it. -/
theorem next_append_of_length_le
    (h : (next (whole 0) stack b x (k ++ v).head? (k ++ v)).length ≤ k.length + 1) :
    next (whole 0) stack b x (k ++ v).head? (k ++ v) = next (whole 0) stack b x k.head? k := by
  unfold next at h ⊢
  cases hm : stack.mode with
  | normal =>
    rw [hm] at h
    dsimp only at h ⊢
    cases hc : contextOf stack.frames with
    | script =>
      rw [outside_of_script hc] at h
      rw [outside_of_script hc, outside_of_script hc]
      exact inScript_append_of_length_le h
    | attrs =>
      obtain ⟨f, fs, hf, htop⟩ := exists_of_attrs hc
      rw [hf, outside_of_attrs htop] at h
      rw [hf, outside_of_attrs htop, outside_of_attrs htop]
      exact inAttrs_append_of_length_le h
    | markup =>
      rw [outside_of_markup hc] at h
      rw [outside_of_markup hc, outside_of_markup hc]
      exact inMarkup_append_of_length_le h
  | blockComment =>
    rw [hm] at h
    exact inBlockComment_append_of_length_le h
  | string => rfl
  | lineComment => rfl

theorem length_next_pos_of_script {rest : Text} (h : contextOf stack.frames = .script) :
    0 < (next (whole 0) stack b x rest.head? rest).length := by
  unfold next
  cases stack.mode with
  | normal =>
    dsimp only
    rw [outside_of_script h]
    exact length_inScript_pos
  | string =>
    dsimp only
    unfold inString
    repeat' split
    all_goals simp [length]
  | lineComment =>
    dsimp only
    unfold inLineComment
    split <;> simp [length]
  | blockComment =>
    dsimp only
    unfold inBlockComment
    split <;> simp [length]

end Move

/-! ### Several characters at once -/

/-- Of several characters that are read together outside of strings, the last is part of a tag or of
a sign. -/
theorem ScanState.getLast?_of_moveAt {s : ScanState} {x : Char} {rest : Text}
    (hlen : 1 < (s.moveAt x rest).length) (hm : s.stack.mode ≠ .string) :
    ∀ z ∈ ((x :: rest).take (s.moveAt x rest).length).getLast?,
      isTagNameChar z = true ∨ z = '/' ∨ z = '*' ∨ z = '>' := by
  unfold moveAt Move.next at hlen ⊢
  cases hmode : s.stack.mode with
  | normal =>
    rw [hmode] at hlen
    dsimp only at hlen ⊢
    have htakes : Move.Takes (x :: rest) (Move.outside (whole 0) s.stack.frames
      (expressionCanFollow s.cursor.before) x rest.head? rest) := Move.takes_outside
    generalize Move.outside (whole 0) s.stack.frames (expressionCanFollow s.cursor.before) x
      rest.head? rest = m at hlen htakes ⊢
    intro z hz
    cases htakes with
    | one hone => omega
    | @two x' y r ht hy hlength =>
      rw [ht, hlength] at hz
      obtain rfl : y = z := by simpa using hz
      exact .inr hy
    | @tag name r ht hname hopen =>
      obtain ⟨a, q, rfl, ha, hq⟩ := id hname
      rw [ht, hopen] at hz
      have htake : ('<' :: (a :: q ++ r)).take (a :: q).length.succ = '<' :: a :: q :=
        congrArg (List.cons '<') List.take_left
      have hlast : ('<' :: a :: q).getLast? = some z := htake ▸ hz
      rw [List.getLast?_cons_cons] at hlast
      exact .inl (hname.isTagNameChar z (List.mem_of_getLast? hlast))
    | @closer name piece r ht hpiece hlength =>
      rw [ht, hlength, List.take_left, hpiece.getLast?] at hz
      exact .inr (.inr (.inr (Option.some.inj hz).symm))
  | string => exact absurd hmode hm
  | lineComment =>
    rw [hmode] at hlen
    dsimp only at hlen
    unfold Move.inLineComment at hlen
    split at hlen <;> exact absurd hlen (Nat.lt_irrefl 1)
  | blockComment =>
    rw [hmode] at hlen
    dsimp only at hlen ⊢
    unfold Move.inBlockComment at hlen ⊢
    split at hlen
    · next hend =>
      obtain ⟨r, rfl⟩ := List.head?_eq_some_iff.mp hend.2
      rw [if_pos hend]
      intro z hz
      exact .inr (.inl (Option.some.inj hz).symm)
    · exact absurd hlen (Nat.lt_irrefl 1)

/-- Inside of a string several characters are read together only behind a backslash. -/
theorem ScanState.moveAt_of_string {s : ScanState} {x : Char} {rest : Text}
    (hlen : 1 < (s.moveAt x rest).length) (hm : s.stack.mode = .string) :
    s.moveAt x rest = .pass 2 := by
  unfold moveAt Move.next Move.inString at hlen ⊢
  rw [hm] at hlen ⊢
  dsimp only at hlen ⊢
  split at hlen
  · next hback => rw [if_pos hback]
  · split at hlen <;> exact absurd hlen (Nat.lt_irrefl 1)

/-! ### Going on from a place -/

/-- Where the scan of a text comes to offset `i`, it goes on, and no tag is cut short there. -/
def Departs (t : Text) (i : Nat) : Prop :=
  ∀ s x rest, Arrives t i s → s.cursor.after = x :: rest → 0 < (s.moveAt x rest).length

section Departs

variable {t : Text} {i : Nat} {y : Char} {s s' : ScanState}

theorem departs_of_script (h : ∀ s, Arrives t i s → contextOf s.stack.frames = .script) :
    Departs t i := fun s _ _ hs _ => Move.length_next_pos_of_script (h s hs)

theorem departs_of_ne_lt (hy : t[i]? = some y) (hlt : y ≠ '<') : Departs t i := by
  intro s x rest hs ha
  rw [after_eq_drop hs.walks, hs.pos] at ha
  have hx := congrArg List.head? ha
  rw [List.head?_drop, hy] at hx
  obtain rfl := Option.some.inj hx
  exact Move.length_next_pos hlt

/-- A scan comes to such a place only once. -/
theorem Departs.eq (hd : Departs t i) (h : Arrives t i s) (h' : Arrives t i s') : s = s' := by
  have same {s s' : ScanState} (h : Arrives t i s) (h' : Arrives t i s')
      (hw : Walks (whole t.length) s s') : s = s' := by
    obtain rfl | ⟨u, hst, hu⟩ := Relation.ReflTransGen.cases_head hw
    · rfl
    obtain ⟨x, rest, ha, rfl⟩ := h.inWhole.steps hst
    have hlength := hd s x rest h ha
    have hle := Walks.pos_le hu (h.inWhole.apply _)
    rw [Move.cursor_apply, Cursor.pos_skip, ha, List.length_cons, h.pos, h'.pos] at hle
    omega
  rcases h.walks.total h'.walks with hw | hw
  · exact same h h' hw
  · exact (same h' h hw).symm

end Departs

/-! ### Coming to the same place -/

section SamePlace

variable {pre u v : Text} {s s' e : ScanState}

/-- Of two walks through texts that go on differently, the second makes the same move if neither of
them goes past the common part. -/
theorem Along.moveAt_eq_of_length_le {q : Text} {x : Char} {t : ScanState} {n : Nat}
    (h : Along (x :: q) u v s t) (ht : InWhole n t)
    (hs : (s.moveAt x (q ++ u)).length ≤ q.length + 1) (he : Walks (whole n) t e)
    (hpos : t.cursor.pos < e.cursor.pos) (hle : e.cursor.pos ≤ t.cursor.pos + (q.length + 1)) :
    t.moveAt x (q ++ v) = s.moveAt x (q ++ u) := by
  have hleft : s.moveAt x (q ++ u) = s.moveAt x q := Move.next_append_of_length_le hs
  have hsame : t.moveAt x q = s.moveAt x q := by
    unfold moveAt
    rw [h.before, h.stack]
  rw [hleft, ← hsame]
  by_cases hv : v = []
  · rw [hv, List.append_nil]
  · refine Move.next_append_of_length_le ?_
    obtain rfl | ⟨w, hst, hwe⟩ := Relation.ReflTransGen.cases_head he
    · exact absurd hpos (Nat.lt_irrefl _)
    obtain ⟨y, rest, ha, rfl⟩ := ht.steps hst
    have hright : t.cursor.after = x :: (q ++ v) := h.right
    obtain ⟨rfl, rfl⟩ := List.cons.inj (ha.symm.trans hright)
    have hlast := Walks.pos_le hwe (ht.walks (.single hst))
    have hlength := List.length_pos_iff.mpr hv
    rw [Move.cursor_apply, Cursor.pos_skip, ha, List.length_cons, List.length_append] at hlast
    show (t.moveAt y (q ++ v)).length ≤ q.length + 1
    omega

/-- Where two texts go on differently behind a place that both scans come to, they come to it alike,
if no tag is cut short there. -/
theorem Arrives.along_of_arrives
    (hd : Departs (pre ++ u) pre.length) (hu : u ≠ [])
    (h : Arrives (pre ++ u) pre.length s) (h' : Arrives (pre ++ v) pre.length e) :
    ∃ t, Arrives (pre ++ v) pre.length t ∧ Along [] u v s t := by
  have hupto := h.walks.keeps (P := fun s =>
    Walks (whole (pre ++ u).length) (Scan.start (pre ++ u) 0) s ∧ (pre.length < s.cursor.pos ∨
      ∃ t, Walks (whole (pre ++ v).length) (Scan.start (pre ++ v) 0) t ∧
        Along (pre.drop s.cursor.pos) u v s t))
    (fun {s s'} hst ⟨hs, hcase⟩ => ?_) ⟨.refl, .inr ⟨_, .refl, along_start pre u v⟩⟩
  · obtain hpast | ⟨t, ht, halong⟩ := hupto.2
    · rw [h.pos] at hpast
      exact absurd hpast (Nat.lt_irrefl _)
    · rw [h.pos, List.drop_length] at halong
      exact ⟨t, ⟨ht, halong.pos ▸ h.pos⟩, halong⟩
  refine ⟨hs.tail hst, ?_⟩
  have hin := (inWhole_start (pre ++ u)).walks hs
  obtain ⟨x, rest, ha, rfl⟩ := hin.steps hst
  rw [Move.cursor_apply, Cursor.pos_skip, ha, List.length_cons]
  obtain hpast | ⟨t, ht, halong⟩ := hcase
  · exact .inl (by omega)
  cases hleft : pre.drop s.cursor.pos with
  | nil =>
    -- the walk is at the place, and leaves it
    have hle := List.drop_eq_nil_iff.mp hleft
    refine .inl ?_
    by_cases hpos : s.cursor.pos = pre.length
    · have := hd s x rest ⟨hs, hpos⟩ ha
      omega
    · omega
  | cons y q =>
    rw [hleft] at halong
    have hlength : q.length + 1 = pre.length - s.cursor.pos := by
      rw [← List.length_cons, ← hleft, List.length_drop]
    have hafter : s.cursor.after = y :: (q ++ u) := halong.left
    obtain ⟨rfl, rfl⟩ := List.cons.inj (ha.symm.trans hafter)
    by_cases hpast : pre.length < s.cursor.pos + (s.moveAt x (q ++ u)).length
    · have := List.length_pos_iff.mpr hu
      refine .inl ?_
      rw [List.length_append]
      omega
    have hle : (s.moveAt x (q ++ u)).length ≤ q.length + 1 := by omega
    -- the second scan goes on to the place, too
    have hte : Walks (whole (pre ++ v).length) t e := by
      refine (Walks.total ht h'.walks).resolve_right fun het => ?_
      have := Walks.pos_le het h'.inWhole
      rw [← halong.pos, h'.pos] at this
      omega
    have hmove := halong.moveAt_eq_of_length_le ((inWhole_start _).walks ht) hle hte
      (by rw [h'.pos, ← halong.pos]; omega) (by rw [h'.pos, ← halong.pos]; omega)
    have hst' := ((inWhole_start (pre ++ v)).walks ht).steps_of_moveAt halong.right hmove
    refine .inr ⟨_, ht.tail hst', ?_⟩
    have hmin : min (s.moveAt x (q ++ u)).length ((q ++ u).length + 1) =
        (s.moveAt x (q ++ u)).length := by
      rw [List.length_append]
      omega
    rw [hmin, ← List.drop_drop, hleft]
    exact halong.apply (by rw [List.length_cons]; exact hle)

end SamePlace

end SnippetGate
