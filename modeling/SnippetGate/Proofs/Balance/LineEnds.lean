import SnippetGate.Proofs.Balance.Closing
import SnippetGate.Proofs.Text.LineEnds

/-!
# Scans and the spelling of line ends

The scans of the two spellings of a text find equally much. The scan of the longer text makes the
moves of the scan of the shorter one, and takes a step of its own over one of the two characters of
each line end. So the two come to the same frames, if one does not ask where these stand.
-/

namespace SnippetGate

open Text

/-! ### Without offsets -/

/-- The frame, wherever it stands. -/
def Frame.bare (f : Frame) : Frame := { f with pos := 0 }

/-- The open frames, wherever they stand, and what the next character belongs to. -/
def BracketStack.bare (s : BracketStack) : BracketStack :=
  ⟨s.frames.map Frame.bare, s.mode, s.quote, none⟩

/-- An issue of which nothing is told but that there is one. -/
def Issue.bare (_ : Issue) : Issue := ⟨.unclosed [], 0, none⟩

/-- The place of a walk without the text around it and without offsets. -/
def ScanState.bare (s : ScanState) : ScanState where
  cursor := .ofText []
  stack := s.stack.bare
  issues := s.issues.map Issue.bare

/-- The move without offsets, and without the length that the blanks in a closing tag make up. -/
def Move.bare : Move → Move
  | closeTag name _ => closeTag name 0
  | cutShort top => cutShort top.bare
  | stray top x => stray top.bare x
  | m => m

theorem Frame.context_eq_of_bare {f g : Frame} (h : f.bare = g.bare) : f.context = g.context :=
  (congrArg Frame.context h :)

theorem Frame.token_eq_of_bare {f g : Frame} (h : f.bare = g.bare) : f.token = g.token :=
  (congrArg Frame.token h :)

namespace ScanState

theorem map_bare_frames (fs : List Frame) :
    (fs.map Frame.bare).map Frame.bare = fs.map Frame.bare := by
  rw [List.map_map]
  rfl

theorem map_bare_issues (found : List Issue) :
    (found.map Issue.bare).map Issue.bare = found.map Issue.bare := by
  rw [List.map_map]
  rfl

theorem bare_bare (s : ScanState) : s.bare.bare = s.bare := by
  simp only [bare, BracketStack.bare, map_bare_frames, map_bare_issues]

/-! ### Parts of a step without offsets -/

theorem bare_push (s : ScanState) {f g : Frame} (h : f.bare = g.bare) :
    (s.bare.push f).bare = (s.push g).bare := by
  simp only [push, bare, BracketStack.push, BracketStack.bare, List.map_cons, map_bare_frames,
    map_bare_issues, h]

theorem bare_pop (s : ScanState) : s.bare.pop.bare = s.pop.bare := by
  simp only [pop, bare, BracketStack.pop, BracketStack.bare, List.map_tail, map_bare_frames,
    map_bare_issues]

theorem bare_report (s : ScanState) (i j : Issue) : (s.bare.report i).bare = (s.report j).bare := by
  simp only [report, bare, BracketStack.bare, List.map_cons, map_bare_frames, map_bare_issues]
  rfl

theorem bare_pop_report (s : ScanState) (i j : Issue) :
    (s.bare.report i).pop.bare = (s.report j).pop.bare := by
  rw [← bare_pop, bare_report s i j, bare_pop]

theorem bare_enter (s : ScanState) (mode : Mode) (quote : Text) :
    (s.bare.enter mode quote).bare = (s.enter mode quote).bare := by
  simp only [enter, bare, BracketStack.enter, BracketStack.bare, map_bare_frames, map_bare_issues]

theorem bare_leave (s : ScanState) : s.bare.leave.bare = s.leave.bare := by
  simp only [leave, bare, BracketStack.leave, BracketStack.bare, map_bare_frames, map_bare_issues]

theorem bare_closeBracket (s : ScanState) (opener x : Char) :
    (s.bare.closeBracket opener x).bare = (s.closeBracket opener x).bare := by
  have hframes : s.bare.stack.frames = s.stack.frames.map Frame.bare := rfl
  unfold closeBracket
  rw [hframes]
  cases hf : s.stack.frames with
  | nil => exact bare_report s _ _
  | cons top fs =>
    have hkind : top.bare.kind = top.kind := rfl
    have htoken : top.bare.token = top.token := rfl
    simp only [List.map_cons, hkind, htoken]
    split
    · exact bare_pop s
    · exact bare_pop_report s _ _

theorem bare_closeTag (s : ScanState) (name : Text) (stop stop' : Nat) :
    (s.bare.closeTag name stop).bare = (s.closeTag name stop').bare := by
  have hframes : s.bare.stack.frames = s.stack.frames.map Frame.bare := rfl
  have hsplit := splitAtTag?_map (g := Frame.bare) (fun _ => rfl) (fun _ => rfl) name s.stack.frames
  unfold closeTag
  rw [hframes, hsplit]
  cases splitAtTag? name s.stack.frames with
  | some parts =>
    simp only [bare, BracketStack.bare, Option.map_some, List.map_append, List.map_reverse,
      List.map_map]
    rfl
  | none =>
    dsimp only [Option.map_none]
    cases hf : s.stack.frames with
    | nil => exact bare_report s _ _
    | cons top fs =>
      have hkind : top.bare.kind = top.kind := rfl
      simp only [List.map_cons, hkind]
      split
      · exact bare_pop_report s _ _
      · exact bare_report s _ _

theorem bare_beginChildren (s : ScanState) : s.bare.beginChildren.bare = s.beginChildren.bare := by
  have hframes : s.bare.stack.frames = s.stack.frames.map Frame.bare := rfl
  unfold beginChildren
  rw [hframes]
  cases hf : s.stack.frames with
  | nil => exact bare_bare s
  | cons top fs =>
    simp only [bare, BracketStack.bare, List.map_cons, List.map_map]
    rfl

end ScanState

/-- A move does the same to the open frames wherever they stand, and finds equally much wrong. -/
theorem Move.bare_apply (s : ScanState) (m : Move) :
    (m.bare.apply s.bare).bare = (m.apply s).bare := by
  cases m with
  | pass n => exact s.bare_bare
  | enter mode quote n => exact s.bare_enter mode quote
  | leave n => exact s.bare_leave
  | openBracket x => exact s.bare_push rfl
  | openTag name phase n => exact s.bare_push rfl
  | closeBracket opener x => exact s.bare_closeBracket opener x
  | closeTag name n => exact s.bare_closeTag name _ _
  | endTag n => exact s.bare_pop
  | beginChildren => exact s.bare_beginChildren
  | cutShort top => exact s.bare_pop_report _ _
  | stray top x => exact s.bare_report _ _

/-! ### Looking back and ahead -/

section Looking

variable {t rest : Text} {x y : Char}

theorem not_mem_newline_of_isTagName {name : Text} (h : name = [] ∨ IsTagName name) :
    '\n' ∉ name := by
  rcases h with rfl | h
  · exact List.not_mem_nil
  · exact fun hm => absurd (h.isTagNameChar _ hm) (by decide)

theorem tagName?_crlf (t : Text) : tagName? (crlf t) = tagName? t := by
  cases t with
  | nil => rfl
  | cons x t =>
    by_cases hx : x = '\n'
    · subst hx
      rfl
    · have hname : '\n' ∉ t.takeWhile isTagNameChar := fun hm =>
        absurd (List.all_eq_true.mp List.all_takeWhile _ hm) (by decide)
      rw [crlf_cons hx, tagName?, tagName?, takeWhile_crlf rfl, crlf_eq_self hname]

/-- A closing tag is read up to its end in both spellings. -/
theorem closingTagRest?_crlf (t : Text) :
    closingTagRest? (crlf t) =
      (closingTagRest? t).map fun (name, n) => (name, (crlf (t.take n)).length) := by
  cases hc : closingTagRest? t with
  | some read =>
    obtain ⟨name, n⟩ := read
    obtain ⟨piece, r, ⟨hname, b₁, b₂, hb₁, hb₂, rfl⟩, rfl, rfl⟩ := closingTagRest?_eq_some_iff.mp hc
    have hblank {b : Text} (hb : ∀ c ∈ b, isBlank c = true) : ∀ c ∈ crlf b, isBlank c = true :=
      forall_mem_crlf (fun _ => rfl) hb
    refine closingTagRest?_eq_some_iff.mpr ⟨_, crlf r, ⟨hname, crlf b₁, crlf b₂, hblank hb₁,
      hblank hb₂, rfl⟩, ?_, ?_⟩
    · simp only [crlf_append, crlf_eq_self (not_mem_newline_of_isTagName hname)]
      rfl
    · rw [List.take_left]
      simp only [crlf_append, crlf_eq_self (not_mem_newline_of_isTagName hname)]
      rfl
  | none =>
    obtain ⟨hname, hsplit⟩ := getD_tagName?_spec (t.dropWhile isBlank)
    simp only [closingTagRest?, ite_eq_right_iff, reduceCtorEq, imp_false, Option.map_none] at hc ⊢
    rw [dropWhile_crlf isBlank_carriageReturn, tagName?_crlf]
    generalize (tagName? (t.dropWhile isBlank)).getD [] = name at hname hsplit hc ⊢
    generalize (t.dropWhile isBlank).drop name.length = tail at hsplit hc ⊢
    rw [hsplit, crlf_append, crlf_eq_self (not_mem_newline_of_isTagName hname), List.drop_left,
      dropWhile_crlf isBlank_carriageReturn, head?_crlf_eq_iff (by decide) (by decide)]
    exact hc

theorem expressionCanFollow_crlf (t : Text) :
    expressionCanFollow (crlf t).reverse = expressionCanFollow t.reverse := by
  induction t using List.reverseRecOn with
  | nil => rfl
  | append_singleton t x ih =>
    by_cases hx : x = '\n'
    · subst hx
      have hend : (crlf t ++ ['\r', '\n']).reverse = '\n' :: '\r' :: (crlf t).reverse := by simp
      rw [crlf_concat_newline, hend, List.reverse_concat]
      rw [expressionCanFollow_of_isBlank (by decide), expressionCanFollow_of_isBlank (by decide),
        expressionCanFollow_of_isBlank (by decide), ih]
    · have hword := takeWhile_reverse_crlf (q := isNameChar) (by decide) (t ++ [x])
      rw [crlf_concat hx, List.reverse_concat, List.reverse_concat] at hword ⊢
      cases hb : isBlank x with
      | true => rw [expressionCanFollow_of_isBlank hb, expressionCanFollow_of_isBlank hb, ih]
      | false =>
        have hb : ¬ isBlank x = true := by simp [hb]
        unfold expressionCanFollow
        rw [List.dropWhile_cons_of_neg hb, List.dropWhile_cons_of_neg hb]
        dsimp only
        rw [hword]

end Looking

/-! ### Moves over two spellings -/

/-- If the move begins a string, the quote is no blank. -/
def Move.QuotesInk : Move → Prop
  | enter _ quote _ => ∀ z ∈ quote, isBlank z = false
  | _ => True

/-- Two moves do the same, the one over some characters of a text, the other over the longer
spelling of these. -/
structure Move.Respells (t : Text) (m m' : Move) : Prop where
  bare : m'.bare = m.bare
  taken : (crlf t).take m'.length = crlf (t.take m.length)
  ink : m.QuotesInk

namespace Move

variable {t rest : Text} {m m' : Move} {x : Char} {stack stack' : BracketStack}

/-- A move that does not take a line end is the same for both spellings. -/
theorem Respells.of_not_mem (hm : m'.bare = m.bare) (hlen : m'.length = m.length)
    (hn : '\n' ∉ t.take m.length) (hink : m.QuotesInk) : Respells t m m' :=
  ⟨hm, by rw [hlen, take_crlf hn], hink⟩

theorem not_mem_take_two {y : Char} (hx : x ≠ '\n') (hy : y ≠ '\n') (h : rest.head? = some y) :
    '\n' ∉ (x :: rest).take 2 := by
  obtain ⟨r, rfl⟩ := List.head?_eq_some_iff.mp h
  simp [hx.symm, hy.symm]

theorem Respells.of_quote (hx : isBlank x = false) :
    Respells (x :: rest) (enter .string [x] 1) (enter .string [x] 1) := by
  refine .of_not_mem rfl rfl ?_ ?_
  · rintro hn
    obtain rfl : x = '\n' := by simpa [length, eq_comm] using hn
    cases hx
  · intro z hz
    obtain rfl := List.mem_singleton.mp hz
    exact hx

theorem Respells.of_comment {y : Char} {mode : Mode} (hx : x ≠ '\n') (hy : y ≠ '\n')
    (h : rest.head? = some y) :
    Respells (x :: rest) (enter mode [] 2) (enter mode [] 2) :=
  .of_not_mem rfl rfl (not_mem_take_two hx hy h) (List.forall_mem_nil _)

theorem opening_respells (rest : Text) :
    Respells ('<' :: rest) (opening rest) (opening (crlf rest)) := by
  obtain ⟨hname, hsplit⟩ := getD_tagName?_spec rest
  have hn := not_mem_newline_of_isTagName hname
  have hsame : opening (crlf rest) = opening rest := by
    simp only [opening, tagName?_crlf,
      head?_crlf_eq_iff (t := rest) (x := '>') (by decide) (by decide)]
  rw [hsame, opening]
  generalize (tagName? rest).getD [] = name at hsplit hn ⊢
  split
  · next hgt => exact .of_not_mem rfl rfl (not_mem_take_two (by decide) (by decide) hgt) trivial
  · refine .of_not_mem rfl rfl ?_ trivial
    rw [length, List.take_succ_cons, hsplit, List.take_left]
    simpa using hn

theorem closing_respells (rest : Text) :
    Respells ('<' :: '/' :: rest) (closing rest) (closing (crlf rest)) := by
  rw [closing, closing, closingTagRest?_crlf]
  cases closingTagRest? rest with
  | none => exact .of_not_mem rfl rfl (by simp [length]) trivial
  | some read =>
    obtain ⟨name, n⟩ := read
    have htaken : (crlf rest).take (crlf (rest.take n)).length = crlf (rest.take n) := by
      have hsplit := congrArg crlf (List.take_append_drop n rest)
      rw [← hsplit, crlf_append, List.take_left]
    refine ⟨rfl, ?_, trivial⟩
    exact congrArg (fun r => '<' :: '/' :: r) htaken

theorem inMarkup_respells (hx : x ≠ '\n') :
    Respells (x :: rest) (inMarkup x rest.head? rest)
      (inMarkup x (crlf rest).head? (crlf rest)) := by
  have hone : '\n' ∉ (x :: rest).take 1 := by simpa using Ne.symm hx
  unfold inMarkup
  simp only [head?_crlf_eq_iff (t := rest) (x := '/') (by decide) (by decide),
    head?_crlf_eq_iff (t := rest) (x := '>') (by decide) (by decide), tagName?_crlf]
  split
  · exact .of_not_mem rfl rfl hone trivial
  split
  · next hlt =>
    subst hlt
    split
    · next hs =>
      obtain ⟨r, rfl⟩ := List.head?_eq_some_iff.mp hs
      exact closing_respells r
    · split
      · exact opening_respells rest
      · exact .of_not_mem rfl rfl hone trivial
  · exact .of_not_mem rfl rfl hone trivial

theorem inAttrs_respells {o : ScanOptions} {top top' : Frame} (hx : x ≠ '\n')
    (htop : top'.bare = top.bare) :
    Respells (x :: rest) (inAttrs o top x rest.head?) (inAttrs o top' x (crlf rest).head?) := by
  have hone : '\n' ∉ (x :: rest).take 1 := by simpa using Ne.symm hx
  unfold inAttrs
  simp only [head?_crlf_eq_iff (t := rest) (x := '>') (by decide) (by decide),
    Frame.token_eq_of_bare htop]
  split
  · next hquote => exact .of_quote (by rcases hquote with rfl | rfl <;> rfl)
  split
  · exact .of_not_mem rfl rfl hone trivial
  split
  · next hend => exact .of_not_mem rfl rfl (not_mem_take_two hx (by decide) hend.2) trivial
  split
  · split <;> exact .of_not_mem rfl rfl hone trivial
  split
  · exact .of_not_mem (congrArg cutShort htop) rfl List.not_mem_nil trivial
  split
  · exact .of_not_mem (congrArg (stray · x) htop) rfl hone trivial
  · exact .of_not_mem rfl rfl hone trivial

theorem inScript_respells {o : ScanOptions} (hx : x ≠ '\n') (invited : Bool) :
    Respells (x :: rest) (inScript o invited x rest.head? rest)
      (inScript o invited x (crlf rest).head? (crlf rest)) := by
  have hone : '\n' ∉ (x :: rest).take 1 := by simpa using Ne.symm hx
  unfold inScript
  simp only [head?_crlf_eq_iff (t := rest) (x := '/') (by decide) (by decide),
    head?_crlf_eq_iff (t := rest) (x := '*') (by decide) (by decide),
    head?_crlf_eq_iff (t := rest) (x := '>') (by decide) (by decide), tagName?_crlf]
  split
  · next hquote => exact .of_quote (by rcases hquote with rfl | rfl | rfl <;> rfl)
  split
  · next hslash => exact .of_comment hx (by decide) hslash.2
  split
  · next hstar => exact .of_comment hx (by decide) hstar.2
  split
  · exact .of_not_mem rfl rfl hone trivial
  cases o.openerOf? x with
  | some opener => exact .of_not_mem rfl rfl hone trivial
  | none =>
    dsimp only
    split
    · next htag =>
      obtain rfl := htag.2
      split
      · next hs =>
        obtain ⟨r, rfl⟩ := List.head?_eq_some_iff.mp hs
        exact closing_respells r
      · split
        · exact opening_respells rest
        · exact .of_not_mem rfl rfl hone trivial
    · exact .of_not_mem rfl rfl hone trivial

theorem outside_respells {o : ScanOptions} {fs gs : List Frame} (hx : x ≠ '\n')
    (h : gs.map Frame.bare = fs.map Frame.bare) (invited : Bool) :
    Respells (x :: rest) (outside o fs invited x rest.head? rest)
      (outside o gs invited x (crlf rest).head? (crlf rest)) := by
  have hscript : Respells (x :: rest) (inScript o invited x rest.head? rest)
      (inScript o invited x (crlf rest).head? (crlf rest)) := inScript_respells hx invited
  cases fs with
  | nil =>
    obtain rfl := List.map_eq_nil_iff.mp h
    exact hscript
  | cons f fs =>
    cases gs with
    | nil => cases h
    | cons g gs =>
      have htop : g.bare = f.bare := (List.cons.inj h).1
      rw [outside, outside, Frame.context_eq_of_bare htop]
      split
      · cases f.context with
        | script => exact hscript
        | attrs => exact inAttrs_respells hx htop
        | markup => exact inMarkup_respells hx
      · exact hscript

/-- Except at a line end, and at a backslash before one, the same move is made for both
spellings. -/
theorem next_respells {o : ScanOptions} (hx : x ≠ '\n')
    (hstring : stack.mode = .string → x = '\\' → rest.head? ≠ some '\n')
    (h : stack'.bare = stack.bare) (invited : Bool) :
    Respells (x :: rest) (next o stack invited x rest.head? rest)
      (next o stack' invited x (crlf rest).head? (crlf rest)) := by
  have hone : '\n' ∉ (x :: rest).take 1 := by simpa using Ne.symm hx
  have hmode : stack'.mode = stack.mode := (congrArg BracketStack.mode h :)
  have hquote : stack'.quote = stack.quote := (congrArg BracketStack.quote h :)
  unfold next
  rw [hmode, hquote]
  cases hm : stack.mode with
  | normal => exact outside_respells hx (congrArg BracketStack.frames h) invited
  | string =>
    dsimp only
    unfold inString
    split
    · next hback =>
      refine .of_not_mem rfl rfl ?_ trivial
      cases rest with
      | nil => simpa [length] using Ne.symm hx
      | cons y r => exact not_mem_take_two hx (fun hy => hstring hm hback (by rw [hy]; rfl)) rfl
    · split <;> exact .of_not_mem rfl rfl hone trivial
  | lineComment =>
    dsimp only
    unfold inLineComment
    split <;> exact .of_not_mem rfl rfl hone trivial
  | blockComment =>
    dsimp only
    unfold inBlockComment
    simp only [head?_crlf_eq_iff (t := rest) (x := '/') (by decide) (by decide)]
    split
    · next hend => exact .of_not_mem rfl rfl (not_mem_take_two hx (by decide) hend.2) trivial
    · exact .of_not_mem rfl rfl hone trivial

end Move

/-! ### Walks over two spellings -/

theorem ScanState.quote_closeBracket (s : ScanState) (opener x : Char) :
    (s.closeBracket opener x).stack.quote = s.stack.quote := by
  unfold closeBracket
  split
  · rfl
  · split <;> rfl

theorem ScanState.quote_closeTag (s : ScanState) (name : Text) (stop : Nat) :
    (s.closeTag name stop).stack.quote = s.stack.quote := by
  unfold closeTag
  split
  · rfl
  · split
    · rfl
    · split <;> rfl

theorem ScanState.quote_beginChildren (s : ScanState) :
    s.beginChildren.stack.quote = s.stack.quote := by
  unfold beginChildren
  split <;> rfl

/-- Two places of walks over the two spellings of a text that have come equally far. -/
structure Spells (s u : ScanState) : Prop where
  bare : u.bare = s.bare
  before : u.cursor.before = (crlf s.cursor.before.reverse).reverse
  after : u.cursor.after = crlf s.cursor.after
  quote : ∀ z ∈ s.stack.quote, isBlank z = false

namespace Spells

variable {s u s' u' : ScanState} {x : Char} {rest : Text} {n k : Nat}

theorem mode (h : Spells s u) : u.stack.mode = s.stack.mode :=
  (congrArg (·.stack.mode) h.bare :)

theorem stack (h : Spells s u) : u.stack.bare = s.stack.bare :=
  (congrArg (·.stack) h.bare :)

theorem invited (h : Spells s u) :
    expressionCanFollow u.cursor.before = expressionCanFollow s.cursor.before := by
  rw [h.before, expressionCanFollow_crlf, List.reverse_reverse]

/-- Both walks go on over the same characters, in their spellings. -/
theorem along (h : Spells s u) (hs : s'.cursor = s.cursor.skip n) (hu : u'.cursor = u.cursor.skip k)
    (htaken : (crlf s.cursor.after).take k = crlf (s.cursor.after.take n))
    (hbare : u'.bare = s'.bare) (hquote : ∀ z ∈ s'.stack.quote, isBlank z = false) :
    Spells s' u' where
  bare := hbare
  before := by
    rw [hs, hu, Cursor.before_skip, Cursor.before_skip, h.before, h.after, htaken,
      List.reverse_append, List.reverse_reverse, crlf_append, List.reverse_append]
  after := by
    have hsplit := List.take_append_drop k (crlf s.cursor.after)
    have hsplit' := congrArg crlf (List.take_append_drop n s.cursor.after)
    rw [crlf_append] at hsplit'
    rw [htaken, ← hsplit', List.append_cancel_left_eq] at hsplit
    rw [hs, hu, Cursor.after_skip, Cursor.after_skip, h.after, ← hsplit', hsplit]
  quote := hquote

theorem quote_apply (hs : ∀ z ∈ s.stack.quote, isBlank z = false) {m : Move}
    (hm : m.QuotesInk) : ∀ z ∈ (m.apply s).stack.quote, isBlank z = false := by
  cases m with
  | enter mode quote n => exact hm
  | leave n => exact List.forall_mem_nil _
  | closeBracket opener x => exact (s.quote_closeBracket opener x).symm ▸ hs
  | closeTag name n => exact (s.quote_closeTag name _).symm ▸ hs
  | beginChildren => exact s.quote_beginChildren.symm ▸ hs
  | _ => exact hs

theorem apply (h : Spells s u) {m m' : Move} (hm : m.Respells s.cursor.after m') :
    Spells (m.apply s) (m'.apply u) := by
  refine h.along (Move.cursor_apply s m) (Move.cursor_apply u m') hm.taken ?_
    (quote_apply h.quote hm.ink)
  rw [← Move.bare_apply u, ← Move.bare_apply s, hm.bare, h.bare]

/-! ### Steps over two spellings -/

open ScanState

/-- A blank is passed over, except for the newline that ends a comment. -/
theorem moveAt_of_isBlank (hq : ∀ z ∈ s.stack.quote, isBlank z = false) (hx : isBlank x = true)
    (hline : s.stack.mode = .lineComment → x ≠ '\n') : s.moveAt x rest = .pass 1 := by
  unfold moveAt Move.next
  cases hm : s.stack.mode with
  | normal => exact Move.outside_of_plain (isPlain_of_isInert (isInert_of_isBlank hx) _ _ _)
  | string =>
    have hback : x ≠ '\\' := by
      rintro rfl
      cases hx
    -- no blank is a quotation mark
    have hend : s.stack.quote ≠ [x] := fun he => by simp [hq x (by simp [he])] at hx
    dsimp only
    rw [Move.inString, if_neg hback, if_neg hend]
  | lineComment => exact if_neg (hline hm)
  | blockComment =>
    refine if_neg fun hstar => ?_
    rw [hstar.1] at hx
    cases hx

/-- Where no line end is taken, both walks make the same step. -/
theorem steps (h : Spells s u) (ha : s.cursor.after = x :: rest) (hu : InWhole n u)
    (hx : x ≠ '\n') (hstring : s.stack.mode = .string → x = '\\' → rest.head? ≠ some '\n') :
    ∃ u', Walks (whole n) u u' ∧ Spells ((s.moveAt x rest).apply s) u' := by
  have hua : u.cursor.after = x :: crlf rest := by rw [h.after, ha, crlf_cons hx]
  refine ⟨_, .single (hu.steps_moveAt hua), h.apply ?_⟩
  rw [ha, moveAt, moveAt, h.invited]
  exact Move.next_respells hx hstring h.stack _

/-- The walk over the longer text makes the same move one character farther on. -/
theorem apply_advance (h : Spells s u) {m : Move} (k : Nat)
    (htaken : (crlf s.cursor.after).take (k + m.length) = crlf (s.cursor.after.take m.length))
    (hm : m.QuotesInk) : Spells (m.apply s) (m.apply (u.advance k)) := by
  refine h.along (Move.cursor_apply s m) ?_ htaken ?_ (quote_apply h.quote hm)
  · rw [Move.cursor_apply, cursor_advance, Cursor.skip_skip]
  · have hu : (u.advance k).bare = s.bare := h.bare
    rw [← Move.bare_apply, ← Move.bare_apply s, hu]

theorem quote_advance (h : Spells s u) (k : Nat) :
    ∀ z ∈ (u.advance k).stack.quote, isBlank z = false := by
  have hquote : (u.advance k).stack.quote = s.stack.quote := (congrArg (·.stack.quote) h.bare :)
  exact hquote ▸ h.quote

/-- At a newline the walk over the longer text first passes over the carriage return. -/
theorem steps_newline (h : Spells s u) (ha : s.cursor.after = '\n' :: rest) (hu : InWhole n u) :
    ∃ u', Walks (whole n) u u' ∧ Spells ((s.moveAt '\n' rest).apply s) u' := by
  have hua : u.cursor.after = '\r' :: '\n' :: crlf rest := by rw [h.after, ha, crlf_newline]
  have hreturn : u.moveAt '\r' ('\n' :: crlf rest) = .pass 1 :=
    moveAt_of_isBlank (h.quote_advance 0) rfl fun _ => by decide
  have hua' : (u.advance 1).cursor.after = '\n' :: crlf rest := by
    rw [cursor_advance, Cursor.after_skip, hua]
    rfl
  -- a newline ends a line comment and is passed over anywhere else, in both walks
  have hmove : (u.advance 1).moveAt '\n' (crlf rest) = s.moveAt '\n' rest ∧
      (s.moveAt '\n' rest = .leave 1 ∨ s.moveAt '\n' rest = .pass 1) := by
    by_cases hline : s.stack.mode = .lineComment
    · have hleave {v : ScanState} (hv : v.stack.mode = .lineComment) (r : Text) :
          v.moveAt '\n' r = .leave 1 := by
        unfold moveAt Move.next
        rw [hv]
        rfl
      rw [hleave hline]
      exact ⟨hleave (h.mode.trans hline) _, .inl rfl⟩
    · rw [moveAt_of_isBlank h.quote rfl (absurd · hline),
        moveAt_of_isBlank (h.quote_advance 1) rfl fun hu => absurd (h.mode.symm.trans hu) hline]
      exact ⟨rfl, .inr rfl⟩
  have hst := hu.steps_of_moveAt hua hreturn
  have hst' := (hu.advance 1).steps_of_moveAt hua' hmove.1
  refine ⟨_, (Relation.ReflTransGen.single hst).tail hst', ?_⟩
  rcases hmove.2 with hm | hm <;> rw [hm]
  · exact h.apply_advance 1 (by rw [ha]; rfl) trivial
  · exact h.apply_advance 1 (by rw [ha]; rfl) trivial

/-- A backslash in a string takes only the carriage return of a line end with it, and the newline is
passed over next. -/
theorem steps_escaped (h : Spells s u) (ha : s.cursor.after = '\\' :: '\n' :: rest)
    (hu : InWhole n u) (hm : s.stack.mode = .string) :
    ∃ u', Walks (whole n) u u' ∧ Spells ((s.moveAt '\\' ('\n' :: rest)).apply s) u' := by
  have hua : u.cursor.after = '\\' :: '\r' :: '\n' :: crlf rest := by
    rw [h.after, ha, crlf_cons (by decide), crlf_newline]
  have hpass {v : ScanState} (hv : v.stack.mode = .string) (r : Text) :
      v.moveAt '\\' r = .pass 2 := by
    unfold moveAt Move.next
    rw [hv]
    rfl
  have hua' : (u.advance 2).cursor.after = '\n' :: crlf rest := by
    rw [cursor_advance, Cursor.after_skip, hua]
    rfl
  have hnext : (u.advance 2).moveAt '\n' (crlf rest) = .pass 1 :=
    moveAt_of_isBlank (h.quote_advance 2) rfl fun hu => by
      rw [← h.mode] at hm
      cases hm.symm.trans hu
  have hst := hu.steps_of_moveAt hua (hpass (h.mode.trans hm) _)
  have hst' := (hu.advance 2).steps_of_moveAt hua' hnext
  rw [hpass hm]
  refine ⟨_, (Relation.ReflTransGen.single hst).tail hst', ?_⟩
  -- two characters here are three there, taken in two steps
  refine h.along (n := 2) (k := 3) rfl ?_ (by rw [ha]; rfl) h.bare h.quote
  exact Cursor.skip_skip 2 1 u.cursor

/-- Each step of the walk over the shorter text is a step or two of the walk over the longer one. -/
theorem exists_walks_of_steps (h : Spells s u) {m : Nat} (hs : InWhole m s) (hu : InWhole n u)
    (hst : Steps (whole m) s s') : ∃ u', Walks (whole n) u u' ∧ Spells s' u' := by
  obtain ⟨x, rest, ha, rfl⟩ := hs.steps hst
  by_cases hx : x = '\n'
  · subst hx
    exact h.steps_newline ha hu
  by_cases hstring : s.stack.mode = .string ∧ x = '\\' ∧ rest.head? = some '\n'
  · obtain ⟨hm, rfl, hr⟩ := hstring
    obtain ⟨r, rfl⟩ := List.head?_eq_some_iff.mp hr
    exact h.steps_escaped ha hu hm
  · exact h.steps ha hu hx fun hm hb hr => hstring ⟨hm, hb, hr⟩

theorem exists_walks (h : Spells s u) {m : Nat} (hs : InWhole m s) (hu : InWhole n u)
    (hw : Walks (whole m) s s') : ∃ u', Walks (whole n) u u' ∧ Spells s' u' := by
  induction hw with
  | refl => exact ⟨u, .refl, h⟩
  | tail hw hst ih =>
    obtain ⟨v, huv, hv⟩ := ih
    obtain ⟨u', hvu, hu'⟩ := hv.exists_walks_of_steps (hs.walks hw) (hu.walks huv) hst
    exact ⟨u', huv.trans hvu, hu'⟩

end Spells

open ScanState in
/-- The scans of both spellings end at the same place. -/
theorem spells_run (t : Text) : Spells (run (whole t.length) (Scan.start t 0))
    (run (whole (crlf t).length) (Scan.start (crlf t) 0)) := by
  have hstart : Spells (Scan.start t 0) (Scan.start (crlf t) 0) :=
    ⟨rfl, rfl, rfl, List.forall_mem_nil _⟩
  have hw := walks_run (whole t.length) (Scan.start t 0)
  obtain ⟨u, hu, h⟩ := hstart.exists_walks (inWhole_start t) (inWhole_start (crlf t)) hw
  have hafter : u.cursor.after = [] := by rw [h.after, (inWhole_start t).after_run, crlf_nil]
  rwa [(inWhole_start (crlf t)).run_eq_of_after hu hafter]

/-! ### What is found -/

open ScanState

theorem ScanState.length_openFrames (s : ScanState) :
    s.openFrames.length = min 1 s.stack.frames.length := by
  unfold openFrames
  cases hf : s.stack.frames with
  | nil => rfl
  | cons f fs => simp [List.getLast?_cons]

/-- Two places that differ in offsets only have found equally much. -/
theorem ScanState.length_outcome {s u : ScanState} (h : u.bare = s.bare) (hs : s.closedAt? = none)
    (hu : u.closedAt? = none) (t v : Text) :
    (u.outcome v).issues.length = (s.outcome t).issues.length ∧
      (u.outcome v).unclosed.length = (s.outcome t).unclosed.length := by
  have hframes : u.stack.frames.length = s.stack.frames.length := by
    simpa [bare, BracketStack.bare] using congrArg (·.stack.frames.length) h
  have hissues : u.issues.length = s.issues.length := by
    simpa [bare] using congrArg (·.issues.length) h
  have htext : (u.openText v).length = (s.openText t).length := by
    have hmode : u.stack.mode = s.stack.mode := (congrArg (·.stack.mode) h :)
    unfold openText
    rw [hmode]
    cases s.stack.mode <;> rfl
  simp [outcome, hs, hu, hissues, htext, length_openFrames, hframes]

/-- The scans of both spellings find equally much. -/
theorem length_ofText_crlf (t : Text) :
    (Scan.ofText (crlf t)).issues.length = (Scan.ofText t).issues.length ∧
      (Scan.ofText (crlf t)).unclosed.length = (Scan.ofText t).unclosed.length :=
  length_outcome (spells_run t).bare
    ((inWhole_start t).walks (walks_run _ _)).closedAt?
    ((inWhole_start (crlf t)).walks (walks_run _ _)).closedAt? t (crlf t)

theorem cost_crlf (t : Text) : (Scan.ofText (crlf t)).cost = (Scan.ofText t).cost := by
  obtain ⟨hissues, hunclosed⟩ := length_ofText_crlf t
  rw [Scan.cost, Scan.cost, hissues, hunclosed]

theorem isBalanced_crlf (t : Text) :
    (Scan.ofText (crlf t)).isBalanced = (Scan.ofText t).isBalanced := by
  rw [Scan.isBalanced, Scan.isBalanced, Bool.eq_iff_iff, List.isEmpty_iff_length_eq_zero,
    List.isEmpty_iff_length_eq_zero, (length_ofText_crlf t).1]

end SnippetGate
