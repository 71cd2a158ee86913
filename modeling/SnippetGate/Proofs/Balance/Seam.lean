import SnippetGate.Proofs.Balance.Tags
import SnippetGate.Proofs.Balance.Walk

/-!
# Walks over texts that agree for a while

A move depends on little of the text around. Looking ahead for a tag ends at the first character
that is neither a blank nor part of a name, and what follows such a character is not looked at.
So two walks over texts that agree so far make the same moves.
-/

namespace SnippetGate

/-! ### Looking back and ahead -/

/-- Looking back passes blanks. -/
theorem expressionCanFollow_of_isBlank {x : Char} {p : Text} (hx : isBlank x = true) :
    expressionCanFollow (x :: p) = expressionCanFollow p := by
  unfold expressionCanFollow
  rw [List.dropWhile_cons_of_pos hx]

/-- Whether looking ahead for a tag cannot pass a character. -/
def stopsLooking (z : Char) : Bool := !isBlank z && !isTagNameChar z

/-- A text that looking ahead for a tag does not pass. -/
def Shields (t : Text) : Prop := ∃ z ∈ t, stopsLooking z = true

variable {t u : Text}

theorem Shields.ne_nil (h : Shields t) : t ≠ [] := by
  obtain ⟨z, hz, -⟩ := h
  exact List.ne_nil_of_mem hz

theorem takeWhile_append_of_stop {p : Char → Bool} {z : Char} (hz : z ∈ t) (hp : p z = false) :
    (t ++ u).takeWhile p = t.takeWhile p ∧ (t ++ u).dropWhile p = t.dropWhile p ++ u := by
  induction t with
  | nil => cases hz
  | cons x t ih =>
    cases hx : p x with
    | false => simp [hx]
    | true =>
      have hne : z ≠ x := by
        rintro rfl
        simp [hp] at hx
      obtain ⟨h₁, h₂⟩ := ih (List.mem_of_ne_of_mem hne hz)
      simp [hx, h₁, h₂]

/-- Nothing more is taken of a text that goes on with a character of another kind. -/
theorem takeWhile_append_of_head {p : Char → Bool} (h : ∀ x ∈ u.head?, p x = false) (t : Text) :
    (t ++ u).takeWhile p = t.takeWhile p := by
  induction t with
  | nil =>
    cases u with
    | nil => rfl
    | cons y u => exact List.takeWhile_cons_of_neg (by simp [h y rfl])
  | cons x t ih => rw [List.cons_append, List.takeWhile_cons, List.takeWhile_cons, ih]

theorem mem_dropWhile_of_stop {p : Char → Bool} {z : Char} (hz : z ∈ t) (hp : p z = false) :
    z ∈ t.dropWhile p := by
  have h := hz
  rw [← List.takeWhile_append_dropWhile (p := p) (l := t)] at h
  rcases List.mem_append.mp h with h | h
  · simp [List.all_eq_true.mp List.all_takeWhile z h] at hp
  · exact h

theorem tagName?_append (h : Shields t) : tagName? (t ++ u) = tagName? t := by
  obtain ⟨z, hz, hs⟩ := h
  simp only [stopsLooking, Bool.and_eq_true, Bool.not_eq_true'] at hs
  cases t with
  | nil => cases hz
  | cons x r =>
    rw [List.cons_append, tagName?, tagName?]
    split
    · next hx =>
      have hne : z ≠ x := by
        rintro rfl
        simp [isTagNameChar_of_isAlpha hx] at hs
      rw [(takeWhile_append_of_stop (List.mem_of_ne_of_mem hne hz) hs.2).1]
    · rfl

theorem closingTagRest?_append (h : Shields t) :
    closingTagRest? (t ++ u) = closingTagRest? t := by
  obtain ⟨z, hz, hs⟩ := id h
  simp only [stopsLooking, Bool.and_eq_true, Bool.not_eq_true'] at hs
  obtain ⟨hblank, hname⟩ := hs
  obtain ⟨h₁, h₂⟩ := takeWhile_append_of_stop (u := u) hz hblank
  have hinner := mem_dropWhile_of_stop hz hblank
  have hn := tagName?_append (u := u) ⟨z, hinner, by simp [stopsLooking, hblank, hname]⟩
  obtain ⟨hok, hsplit⟩ := getD_tagName?_spec (t.dropWhile isBlank)
  have hlen : ((tagName? (t.dropWhile isBlank)).getD []).length ≤
      (t.dropWhile isBlank).length := by
    have h := congrArg List.length hsplit
    rw [List.length_append, List.length_drop] at h
    omega
  have htail : z ∈
      (t.dropWhile isBlank).drop ((tagName? (t.dropWhile isBlank)).getD []).length := by
    rw [hsplit] at hinner
    rcases List.mem_append.mp hinner with hm | hm
    · rcases hok with he | he
      · rw [he] at hm; cases hm
      · rw [he.isTagNameChar z hm] at hname; cases hname
    · exact hm
  obtain ⟨h₃, h₄⟩ := takeWhile_append_of_stop (u := u) htail hblank
  have hne := List.ne_nil_of_mem (mem_dropWhile_of_stop htail hblank)
  simp only [closingTagRest?, h₁, h₂, hn, List.drop_append_of_le_length hlen, h₃, h₄,
    List.head?_append_of_ne_nil _ hne]

/-- What stands after a character shields all that a step looks at. -/
structure Screens (rest : Text) : Prop where
  shields : Shields rest
  tail : rest.head? = some '/' → Shields rest.tail

namespace Move

variable {o : ScanOptions} {stack : BracketStack} {b : Bool} {x : Char} {rest : Text}

theorem opening_append (h : Shields rest) : opening (rest ++ u) = opening rest := by
  rw [opening, opening, List.head?_append_of_ne_nil _ h.ne_nil, tagName?_append h]

theorem closing_append (h : Shields rest) : closing (rest ++ u) = closing rest := by
  rw [closing, closing, closingTagRest?_append h]

theorem inMarkup_append (h : Screens rest) :
    inMarkup x (rest ++ u).head? (rest ++ u) = inMarkup x rest.head? rest := by
  have hne := h.shields.ne_nil
  rw [inMarkup, inMarkup, List.head?_append_of_ne_nil _ hne, tagName?_append h.shields,
    opening_append h.shields, List.tail_append_of_ne_nil hne]
  split
  · rfl
  split
  · split
    · next hs => exact closing_append (h.tail hs)
    · rfl
  · rfl

theorem inScript_append (h : Screens rest) :
    inScript o b x (rest ++ u).head? (rest ++ u) = inScript o b x rest.head? rest := by
  have hne := h.shields.ne_nil
  rw [inScript, inScript, List.head?_append_of_ne_nil _ hne, tagName?_append h.shields,
    opening_append h.shields, List.tail_append_of_ne_nil hne]
  cases o.openerOf? x with
  | some opener => rfl
  | none =>
    dsimp only
    by_cases hs : rest.head? = some '/'
    · rw [closing_append (h.tail hs)]
    · simp only [if_neg hs]

/-- What follows a screening text makes no difference to a move. -/
theorem next_append (h : Screens rest) :
    next o stack b x (rest ++ u).head? (rest ++ u) = next o stack b x rest.head? rest := by
  have hy : (rest ++ u).head? = rest.head? :=
    List.head?_append_of_ne_nil rest h.shields.ne_nil
  unfold next
  cases stack.mode with
  | normal =>
    dsimp only
    unfold outside
    cases stack.frames with
    | nil => exact inScript_append h
    | cons f fs =>
      dsimp only
      split
      · cases f.context with
        | script => exact inScript_append h
        | attrs => rw [hy]
        | markup => exact inMarkup_append h
      · exact inScript_append h
  | blockComment => rw [hy]
  | _ => rfl

theorem length_opening_le (rest : Text) (hne : rest.head? = some '>' ∨ (tagName? rest).isSome) :
    (opening rest).length ≤ rest.length + 1 := by
  unfold opening
  split
  · next h =>
    obtain ⟨r, rfl⟩ := List.head?_eq_some_iff.mp h
    simp [length]
  · next h =>
    obtain ⟨name, hname⟩ := Option.isSome_iff_exists.mp (hne.resolve_left h)
    obtain ⟨-, r, rfl, -⟩ := tagName?_eq_some_iff.mp hname
    simp [length, hname]

theorem length_closing_le (rest : Text) : (closing rest).length ≤ rest.length + 2 := by
  unfold closing
  split
  · next name n h =>
    obtain ⟨piece, r, -, rfl, rfl⟩ := closingTagRest?_eq_some_iff.mp h
    simp only [length, List.length_append]
    omega
  · simp only [length]; omega

theorem length_inMarkup_le : (inMarkup x rest.head? rest).length ≤ rest.length + 1 := by
  unfold inMarkup
  split
  · simp [length]
  split
  · split
    · next hs =>
      obtain ⟨r, rfl⟩ := List.head?_eq_some_iff.mp hs
      exact length_closing_le r
    · split
      · next h => exact length_opening_le rest h
      · simp [length]
  · simp [length]

theorem length_inAttrs_le {top : Frame} :
    (inAttrs o top x rest.head?).length ≤ rest.length + 1 := by
  unfold inAttrs
  split
  · simp [length]
  split
  · simp [length]
  split
  · next h =>
    obtain ⟨r, rfl⟩ := List.head?_eq_some_iff.mp h.2
    simp [length]
  split
  · split <;> simp [length]
  split
  · simp [length]
  split <;> simp [length]

theorem length_inScript_le : (inScript o b x rest.head? rest).length ≤ rest.length + 1 := by
  unfold inScript
  split
  · simp [length]
  split
  · next h =>
    obtain ⟨r, rfl⟩ := List.head?_eq_some_iff.mp h.2
    simp [length]
  split
  · next h =>
    obtain ⟨r, rfl⟩ := List.head?_eq_some_iff.mp h.2
    simp [length]
  split
  · simp [length]
  cases o.openerOf? x with
  | some opener => simp [length]
  | none =>
    dsimp only
    split
    · split
      · next hs =>
        obtain ⟨r, rfl⟩ := List.head?_eq_some_iff.mp hs
        exact length_closing_le r
      · split
        · next h => exact length_opening_le rest h.1
        · simp [length]
    · simp [length]

/-- A move stays inside of the text, unless a backslash ends it. -/
theorem length_next_le (h : rest ≠ [] ∨ x ≠ '\\') :
    (next o stack b x rest.head? rest).length ≤ rest.length + 1 := by
  unfold next
  cases stack.mode with
  | normal =>
    dsimp only
    unfold outside
    cases stack.frames with
    | nil => exact length_inScript_le
    | cons f fs =>
      dsimp only
      split
      · cases f.context with
        | script => exact length_inScript_le
        | attrs => exact length_inAttrs_le
        | markup => exact length_inMarkup_le
      · exact length_inScript_le
  | string =>
    dsimp only
    unfold inString
    split
    · next hb =>
      have := List.length_pos_iff.mpr (h.resolve_right (not_not_intro hb))
      simp only [length]
      omega
    · split <;> simp [length]
  | lineComment =>
    dsimp only
    unfold inLineComment
    split <;> simp [length]
  | blockComment =>
    dsimp only
    unfold inBlockComment
    split
    · next hs =>
      obtain ⟨r, rfl⟩ := List.head?_eq_some_iff.mp hs.2
      simp [length]
    · simp [length]

theorem length_opening_pos (rest : Text) : 0 < (opening rest).length := by
  unfold opening
  split <;> simp [length]

theorem length_closing_pos (rest : Text) : 0 < (closing rest).length := by
  unfold closing
  split <;> simp [length]

theorem length_inScript_pos {y : Option Char} : 0 < (inScript o b x y rest).length := by
  unfold inScript
  repeat' split
  all_goals first
    | exact length_opening_pos rest
    | exact length_closing_pos rest.tail
    | simp [length]

/-- Only a tag that another one cuts short ends without a character. -/
theorem length_next_pos {y : Option Char} (h : x ≠ '<') :
    0 < (next o stack b x y rest).length := by
  unfold next
  cases stack.mode with
  | normal =>
    dsimp only
    unfold outside
    cases stack.frames with
    | nil => exact length_inScript_pos
    | cons f fs =>
      dsimp only
      split
      · cases f.context with
        | script => exact length_inScript_pos
        | attrs =>
          dsimp only
          unfold inAttrs
          repeat' split
          all_goals simp_all [length]
        | markup =>
          dsimp only
          unfold inMarkup
          rw [if_neg h]
          split <;> simp [length]
      · exact length_inScript_pos
  | string =>
    dsimp only
    unfold inString
    repeat' split
    all_goals simp [length]
  | lineComment =>
    dsimp only
    unfold inLineComment
    split <;> simp [length]
  | blockComment =>
    dsimp only
    unfold inBlockComment
    split <;> simp [length]

/-- At the end of a tag nothing is looked at but the character itself. -/
theorem next_gt {y y' : Option Char} {rest' : Text} :
    next o stack b '>' y rest = next o stack b '>' y' rest' := by
  have hs : inScript o b '>' y rest = inScript o b '>' y' rest' := by
    simp [inScript]
  unfold next
  cases stack.mode with
  | normal =>
    dsimp only
    unfold outside
    cases stack.frames with
    | nil => exact hs
    | cons f fs =>
      dsimp only
      split
      · cases f.context with
        | script => exact hs
        | attrs => simp [inAttrs]
        | markup => simp [inMarkup]
      · exact hs
  | blockComment => simp [inBlockComment]
  | _ => rfl

end Move

/-! ### Alike places -/

/-- Two places of walks between which only the texts around differ. -/
structure Alike (s t : ScanState) : Prop where
  pos : s.cursor.pos = t.cursor.pos
  stack : s.stack = t.stack
  issues : s.issues = t.issues
  closedAt? : s.closedAt? = t.closedAt?

namespace Alike

open ScanState

variable {s t : ScanState}

theorem stack_apply (h : Alike s t) (m : Move) : (m.apply s).stack = (m.apply t).stack := by
  cases m with
  | closeBracket opener x =>
    simp only [Move.apply, advance, ScanState.closeBracket, h.stack]
    split
    · exact h.stack
    · split <;> simp [report, pop, h.stack]
  | closeTag name n =>
    simp only [Move.apply, advance, ScanState.closeTag, h.stack]
    split
    · rfl
    · split
      · exact h.stack
      · split <;> simp [report, pop, h.stack]
  | beginChildren =>
    simp only [Move.apply, advance, ScanState.beginChildren, h.stack]
    split
    · exact h.stack
    · rfl
  | _ => simp [Move.apply, advance, enter, leave, push, pop, report, h.stack, h.pos]

theorem issues_apply (h : Alike s t) (m : Move) : (m.apply s).issues = (m.apply t).issues := by
  cases m with
  | closeBracket opener x =>
    simp only [Move.apply, advance, ScanState.closeBracket, h.stack]
    split
    · simp [report, h.issues, h.pos]
    · split <;> simp [report, pop, h.issues, h.pos]
  | closeTag name n =>
    simp only [Move.apply, advance, ScanState.closeTag, h.stack]
    split
    · simp [h.issues, h.pos]
    · split
      · simp [report, h.issues, h.pos]
      · split <;> simp [report, pop, h.issues, h.pos]
  | beginChildren =>
    simp only [Move.apply, advance, ScanState.beginChildren, h.stack]
    split
    · exact h.issues
    · simp [h.issues]
  | _ => simp [Move.apply, advance, enter, leave, push, pop, report, h.issues, h.pos]

/-- A move that goes equally far leads from alike places to alike places. -/
theorem apply (h : Alike s t) {m : Move}
    (hm : min m.length s.cursor.after.length = min m.length t.cursor.after.length) :
    Alike (m.apply s) (m.apply t) where
  pos := by
    rw [Move.cursor_apply, Move.cursor_apply, Cursor.pos_skip, Cursor.pos_skip, hm, h.pos]
  stack := h.stack_apply m
  issues := h.issues_apply m
  closedAt? := by rw [Move.closedAt?_apply, Move.closedAt?_apply, h.closedAt?]

end Alike

/-! ### Texts that agree up to a place -/

/-- Two places of walks over texts that agree before them and over `a`; behind that, the texts go
on with `u` and with `v`. -/
structure Along (a u v : Text) (s t : ScanState) : Prop extends Alike s t where
  before : s.cursor.before = t.cursor.before
  left : s.cursor.after = a ++ u
  right : t.cursor.after = a ++ v

namespace Along

open ScanState

variable {a u v rest : Text} {x : Char} {s t : ScanState}

/-- What the texts go on with makes no difference if it is not looked at. -/
theorem moveAt_eq (h : Along (x :: rest) u v s t) (hr : Screens rest) :
    t.moveAt x (rest ++ v) = s.moveAt x (rest ++ u) := by
  unfold moveAt
  rw [h.before, h.stack, Move.next_append hr, Move.next_append hr]

theorem length_moveAt_le (hr : Screens rest) :
    (s.moveAt x (rest ++ u)).length ≤ rest.length + 1 := by
  unfold moveAt
  rw [Move.next_append hr]
  exact Move.length_next_le (.inl hr.shields.ne_nil)

theorem apply (h : Along a u v s t) {m : Move} (hm : m.length ≤ a.length) :
    Along (a.drop m.length) u v (m.apply s) (m.apply t) where
  toAlike := h.toAlike.apply (by
    rw [h.left, h.right, List.length_append, List.length_append]
    omega)
  before := by
    rw [Move.cursor_apply, Move.cursor_apply, Cursor.before_skip, Cursor.before_skip, h.left,
      h.right, List.take_append_of_le_length hm, List.take_append_of_le_length hm, h.before]
  left := by
    rw [Move.cursor_apply, Cursor.after_skip, h.left, List.drop_append_of_le_length hm]
  right := by
    rw [Move.cursor_apply, Cursor.after_skip, h.right, List.drop_append_of_le_length hm]

end Along

theorem along_start (a u v : Text) :
    Along a u v (Scan.start (a ++ u) 0) (Scan.start (a ++ v) 0) where
  pos := rfl
  stack := rfl
  issues := rfl
  closedAt? := rfl
  before := rfl
  left := rfl
  right := rfl

/-! ### A text that goes on behind a tag -/

/-- What is left of the text is nothing, or ends like a tag. -/
def EndsLikeTag (t : Text) : Prop := ∀ z ∈ t.getLast?, z = '>'

theorem EndsLikeTag.drop (h : EndsLikeTag t) (n : Nat) : EndsLikeTag (t.drop n) := by
  intro z hz
  rw [List.getLast?_drop] at hz
  split at hz
  · cases hz
  · exact h z hz

theorem EndsLikeTag.mem (h : EndsLikeTag t) (hne : t ≠ []) : '>' ∈ t :=
  h _ (List.getLast?_eq_some_getLast hne) ▸ List.getLast_mem hne

theorem EndsLikeTag.screens (h : EndsLikeTag t) (hne : t ≠ []) : Screens t where
  shields := ⟨'>', h.mem hne, rfl⟩
  tail := by
    intro hs
    obtain ⟨r, rfl⟩ := List.head?_eq_some_iff.mp hs
    have hm : '>' ∈ '/' :: r := h.mem (List.cons_ne_nil _ _)
    exact ⟨'>', by simpa using hm, rfl⟩

namespace ScanState

variable {e rest : Text} {n : Nat} {x : Char} {s s' t : ScanState}

/-- How two walks have come together through a text that ends like a tag, the second of them
through a text that goes on with `e` there. -/
def Together (e : Text) (n : Nat) (s t : ScanState) : Prop :=
  InWhole n s ∧ InWhole (n + e.length) t ∧
    ∃ a, EndsLikeTag a ∧ Along a [] e s t

theorem Together.step (h : Together e n s t) (hst : Steps (whole n) s s') :
    ∃ t', Steps (whole (n + e.length)) t t' ∧ Together e n s' t' := by
  obtain ⟨hs, ht, a, hend, h⟩ := h
  obtain ⟨x, rest, ha, rfl⟩ := hs.steps hst
  have hleft : a = x :: rest := by rw [← ha, h.left, List.append_nil]
  subst hleft
  have hst' := ht.steps_moveAt (show t.cursor.after = x :: (rest ++ e) from h.right)
  -- the last character is the end of a tag, at which no more is looked at
  have hx : rest = [] → x = '>' := by
    rintro rfl
    exact hend x rfl
  have hmove : t.moveAt x (rest ++ e) = s.moveAt x rest := by
    by_cases hr : rest = []
    · unfold moveAt
      rw [h.before, h.stack, hx hr]
      exact Move.next_gt
    · simpa using h.moveAt_eq ((hend.drop 1).screens hr)
  have hlen : (s.moveAt x rest).length ≤ (x :: rest).length := by
    refine Move.length_next_le ?_
    by_cases hr : rest = []
    · exact .inr (by rw [hx hr]; decide)
    · exact .inl hr
  rw [hmove] at hst'
  exact ⟨_, hst', hs.apply _, ht.apply _, _, hend.drop _, h.apply hlen⟩

theorem together_start (e : Text) {t : Text} (h : EndsLikeTag t) :
    Together e t.length (Scan.start t 0) (Scan.start (t ++ e) 0) := by
  have hstart := along_start t [] e
  have hin := inWhole_start (t ++ e)
  rw [List.append_nil] at hstart
  rw [List.length_append] at hin
  exact ⟨inWhole_start t, hin, t, h, hstart⟩

end ScanState

end SnippetGate
