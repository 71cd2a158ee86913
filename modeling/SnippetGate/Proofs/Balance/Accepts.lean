import SnippetGate.Proofs.Balance.Grammar
import SnippetGate.Proofs.Balance.Walk

/-!
# Script is read without complaint

What the grammar derives, a scan goes over under any open frames, and finds nothing wrong with it.
-/

namespace SnippetGate

open Grammar

namespace ScanState

/-- A place outside of strings and comments, up to which nothing was found wrong. -/
def clear (c : Cursor) (fs : List Frame) : ScanState := { cursor := c, stack := { frames := fs } }

/-- A place inside of a string or a comment, up to which nothing was found wrong. -/
def inside (c : Cursor) (fs : List Frame) (mode : Mode) (quote : Text) (start : Option Nat) :
    ScanState :=
  { cursor := c, stack := ⟨fs, mode, quote, start⟩ }

/-- How a character is read under the given frames. -/
def contextOf (fs : List Frame) : Context := BracketStack.context { frames := fs }

@[simp] theorem contextOf_nil : contextOf [] = .script := rfl
@[simp] theorem contextOf_cons (f : Frame) (fs : List Frame) : contextOf (f :: fs) = f.context :=
  rfl

/-- The place is clear, or the text ends there in a comment that a newline would end. -/
inductive Settled (c : Cursor) (fs : List Frame) : ScanState → Prop
  | clear : Settled c fs (clear c fs)
  | comment (start : Option Nat) : c.after = [] → Settled c fs (inside c fs .lineComment [] start)

theorem Settled.eq_clear {c : Cursor} {fs : List Frame} {s : ScanState} (h : Settled c fs s)
    (hc : c.after ≠ []) : s = ScanState.clear c fs := by
  cases h with
  | clear => rfl
  | comment _ ha => exact absurd ha hc

theorem kind_of_context_script {f : Frame} (h : f.context = .script) : f.kind = .bracket := by
  unfold Frame.context at h
  split at h
  · assumption
  · split at h <;> cases h

/-- In script there is nothing for a closing tag to close. -/
theorem closeTag_of_script {s : ScanState} (hk : contextOf s.stack.frames = .script) (name : Text)
    (stop : Nat) :
    s.closeTag name stop = s.report ⟨.unmatched (.tag name), s.cursor.pos, some stop⟩ := by
  unfold closeTag
  cases hf : s.stack.frames with
  | nil => rfl
  | cons f fs =>
    rw [hf] at hk
    have hb : f.kind = .bracket := kind_of_context_script hk
    simp [splitAtTag?, hb]

end ScanState

namespace Move

open ScanState

variable {c : Cursor} {fs : List Frame} {n : Nat} {x y : Char} {r : Text} {b : Bool}

/-! ### Moves from clear places -/

theorem apply_closeBracket_clear {opener : Char} {p : Nat} :
    (closeBracket opener x).apply (clear c (.bracket opener p :: fs)) = clear (c.skip 1) fs := by
  simp [apply, clear, ScanState.closeBracket, Frame.bracket, pop, BracketStack.pop, advance]

theorem apply_closeTag_clear {name : Text} {p : Nat} {phase : Phase} :
    (closeTag name n).apply (clear c (⟨.tag, name, p, phase⟩ :: fs)) = clear (c.skip n) fs := by
  simp [apply, clear, ScanState.closeTag, splitAtTag?, advance]

/-! ### Decisions over a whole text -/

theorem openerOf?_whole (x : Char) :
    (whole n).openerOf? x =
      if x = '}' then some '{' else if x = ']' then some '[' else if x = ')' then some '('
      else none := by
  by_cases h₁ : x = '}'
  · subst h₁; rfl
  by_cases h₂ : x = ']'
  · subst h₂; rfl
  by_cases h₃ : x = ')'
  · subst h₃; rfl
  simp [ScanOptions.openerOf?, h₁, h₂, h₃, Ne.symm]

theorem isOpener_whole (x : Char) :
    (whole n).isOpener x = true ↔ x = '(' ∨ x = '[' ∨ x = '{' := by
  simp [ScanOptions.isOpener, eq_comm (b := x)]

theorem outside_of_script (h : contextOf fs = .script) :
    outside (whole n) fs b x r.head? r = inScript (whole n) b x r.head? r := by
  cases fs with
  | nil => rfl
  | cons f fs =>
    rw [contextOf_cons] at h
    simp [outside, h]

theorem outside_of_attrs {f : Frame} (h : f.context = .attrs) :
    outside (whole n) (f :: fs) b x r.head? r = inAttrs (whole n) f x r.head? := by
  simp [outside, h]

theorem outside_of_markup (h : contextOf fs = .markup) :
    outside (whole n) fs b x r.head? r = inMarkup x r.head? r := by
  cases fs with
  | nil => cases h
  | cons f fs =>
    rw [contextOf_cons] at h
    simp [outside, h]

theorem exists_of_attrs (h : contextOf fs = .attrs) :
    ∃ f gs, fs = f :: gs ∧ f.context = .attrs := by
  cases fs with
  | nil => cases h
  | cons f gs => exact ⟨f, gs, rfl, h⟩

/-! ### What the grammar says of decisions -/

theorem inScript_of_plain {before : Text} (h : IsPlain .script before x r) :
    inScript (whole n) (expressionCanFollow before) x r.head? r = pass 1 := by
  obtain ⟨hx, hslash, hlt⟩ := h
  simp only [show "\x22\x27\x60()[]\x7b\x7d".toList =
    ['\x22', '\x27', '\x60', '(', ')', '[', ']', '{', '}'] from rfl, List.mem_cons,
    List.not_mem_nil, or_false, not_or] at hx
  obtain ⟨h₁, h₂, h₃, h₄, h₅, h₆, h₇, h₈, h₉⟩ := hx
  rw [inScript, if_neg (by simp [h₁, h₂, h₃]), if_neg (fun h => (hslash h.1).1 h.2),
    if_neg (fun h => (hslash h.1).2 h.2), if_neg (by simp [isOpener_whole, h₄, h₆, h₈]),
    openerOf?_whole, if_neg h₉, if_neg h₇, if_neg h₅]
  dsimp only
  split
  · next htag =>
    obtain ⟨hb, hc⟩ := hlt htag.2
    obtain rfl := htag.2
    split
    · next hs =>
      obtain ⟨r, rfl⟩ := List.head?_eq_some_iff.mp hs
      cases hq : closingTagRest? r with
      | none => simp [closing, hq]
      | some q => exact absurd (closingTagRest?_isSome_iff.mp (by simp [hq])) hc
    · rw [if_neg]
      simpa [BeginsElement, opensMarkup] using hb
  · rfl

theorem inAttrs_of_plain {before : Text} {top : Frame} (h : IsPlain .attrs before x r) :
    inAttrs (whole n) top x r.head? = pass 1 := by
  obtain ⟨hx, hslash⟩ := h
  simp only [show "\x22\x27\x7b\x7d)]<>".toList =
    ['\x22', '\x27', '{', '}', ')', ']', '<', '>'] from rfl, List.mem_cons,
    List.not_mem_nil, or_false, not_or] at hx
  obtain ⟨h₁, h₂, h₃, h₄, h₅, h₆, h₇, h₈⟩ := hx
  rw [inAttrs, if_neg (by simp [h₁, h₂]), if_neg h₃, if_neg (fun h => hslash h.1 h.2), if_neg h₈,
    if_neg h₇, if_neg (by simp [openerOf?_whole, h₄, h₅, h₆])]

theorem inMarkup_of_plain {before : Text} (h : IsPlain .markup before x r) :
    inMarkup x r.head? r = pass 1 := by
  obtain ⟨hx, hlt⟩ := h
  rw [inMarkup, if_neg hx]
  split
  · next hl =>
    obtain ⟨hb, hc⟩ := hlt hl
    subst hl
    split
    · next hs =>
      obtain ⟨r, rfl⟩ := List.head?_eq_some_iff.mp hs
      cases hq : closingTagRest? r with
      | none => simp [closing, hq]
      | some q => exact absurd (closingTagRest?_isSome_iff.mp (by simp [hq])) hc
    · exact if_neg hb
  · rfl

/-- A plain character is passed over. -/
theorem outside_of_plain {before : Text} (h : IsPlain (contextOf fs) before x r) :
    outside (whole n) fs (expressionCanFollow before) x r.head? r = pass 1 := by
  cases hk : contextOf fs with
  | script => rw [outside_of_script hk]; exact inScript_of_plain (hk ▸ h)
  | attrs =>
    obtain ⟨f, gs, rfl, hf⟩ := exists_of_attrs hk
    rw [outside_of_attrs hf]
    exact inAttrs_of_plain (hk ▸ h)
  | markup => rw [outside_of_markup hk]; exact inMarkup_of_plain (hk ▸ h)

/-- A quote begins a string. -/
theorem outside_of_quote (h : IsQuote (contextOf fs) x) :
    outside (whole n) fs b x r.head? r = enter .string [x] 1 := by
  cases hk : contextOf fs with
  | script =>
    rw [hk] at h
    rw [outside_of_script hk]
    exact if_pos h
  | attrs =>
    obtain ⟨f, gs, rfl, hf⟩ := exists_of_attrs hk
    rw [hk] at h
    rw [outside_of_attrs hf]
    exact if_pos h
  | markup => rw [hk] at h; exact h.elim

/-- An opening bracket opens a frame. -/
theorem outside_of_pair (h : IsPair (contextOf fs) x y) :
    outside (whole n) fs b x r.head? r = openBracket x := by
  cases hk : contextOf fs with
  | script =>
    rw [outside_of_script hk]
    rw [hk] at h
    rcases h with ⟨rfl, -⟩ | ⟨rfl, -⟩ | ⟨rfl, -⟩ <;> rfl
  | attrs =>
    obtain ⟨f, gs, rfl, hf⟩ := exists_of_attrs hk
    rw [outside_of_attrs hf]
    rw [hk] at h
    obtain ⟨rfl, -⟩ := h
    rfl
  | markup =>
    rw [outside_of_markup hk]
    rw [hk] at h
    obtain ⟨rfl, -⟩ := h
    rfl

/-- In script a closing bracket meets the opener of its pair. -/
theorem inScript_of_pair {k : Context} (h : IsPair k x y) :
    inScript (whole n) b y r.head? r = closeBracket x y := by
  rcases h.script with ⟨rfl, rfl⟩ | ⟨rfl, rfl⟩ | ⟨rfl, rfl⟩ <;> rfl

/-- Where an element can begin, the character after its `<` decides how. -/
theorem outside_of_begins {before : Text} (h : BeginsElement (contextOf fs) before r) :
    outside (whole n) fs (expressionCanFollow before) '<' r.head? r = opening r := by
  have hne : ∀ h' : r.head? = some '>' ∨ (tagName? r).isSome = true, r.head? ≠ some '/' := by
    rintro (h' | h') hs
    · simp [hs] at h'
    · obtain ⟨x, q, rfl, hx⟩ := tagName?_isSome_iff.mp h'
      obtain rfl : x = '/' := by simpa using hs
      cases hx
  cases hk : contextOf fs with
  | script =>
    rw [hk] at h
    have h' : (r.head? = some '>' ∨ (tagName? r).isSome = true) ∧
        expressionCanFollow before = true := by
      simpa [BeginsElement, opensMarkup] using h
    have hs := hne h'.1
    rw [outside_of_script hk, inScript, if_neg (by decide), if_neg (by simp), if_neg (by simp),
      if_neg (by simp [isOpener_whole]), openerOf?_whole]
    simp [hs, h'.1, h'.2]
  | attrs => rw [hk] at h; exact h.elim
  | markup =>
    rw [hk] at h
    rw [outside_of_markup hk, inMarkup, if_neg (by decide), if_pos rfl, if_neg (hne h)]
    exact if_pos h

theorem opening_of_name {name : Text} (hname : IsTagName name) (hr : EndsTagName r) :
    opening (name ++ r) = openTag name .attrs (name.length + 1) := by
  have hq : tagName? (name ++ r) = some name := tagName?_eq_some_iff.mpr ⟨hname, r, rfl, hr⟩
  obtain ⟨x, a, rfl, hx, -⟩ := hname
  have hne : x ≠ '>' := by rintro rfl; cases hx
  rw [opening, if_neg (by simpa using hne), hq, Option.getD_some]

/-- A closing tag is read as such in markup. -/
theorem inMarkup_of_closing {name rest : Text} (h : IsClosingRest name rest) :
    inMarkup '<' ('/' :: (rest ++ r)).head? ('/' :: (rest ++ r)) =
      closeTag name (rest.length + 2) := by
  have hq : closingTagRest? (rest ++ r) = some (name, rest.length) :=
    closingTagRest?_eq_some_iff.mpr ⟨rest, r, h, rfl, rfl⟩
  rw [inMarkup, if_neg (by decide), if_pos rfl, List.head?_cons, if_pos rfl, List.tail_cons,
    closing, hq]

end Move

namespace ScanState

variable {c d e : Cursor} {fs : List Frame} {n : Nat} {k : Context}

/-! ### Walks over what the grammar derives -/

theorem steps_clear (fs : List Frame) {x : Char} {r : Text} (hn : c.stop = n)
    (ha : c.after = x :: r) : Steps (whole n) (clear c fs)
      ((Move.outside (whole 0) fs (expressionCanFollow c.before) x r.head? r).apply
        (clear c fs)) :=
  InWhole.steps_moveAt (s := clear c fs) ⟨hn, rfl⟩ ha

theorem steps_plain {x : Char} (hn : c.stop = n) (ho : c.Over [x] d)
    (h : IsPlain (contextOf fs) c.before x d.after) :
    Steps (whole n) (clear c fs) (clear d fs) := by
  have hst := steps_clear fs hn ho.after_cons
  rw [List.nil_append, Move.outside_of_plain h] at hst
  rwa [← ho.skip]

variable {o : ScanOptions} {x : Char} {a quote : Text} {mode : Mode} {start : Option Nat}

theorem toEnd_inside (fs : List Frame) (mode : Mode) (quote : Text) (start : Option Nat)
    (hn : c.stop = o.limit) : ToEnd o (inside c fs mode quote start) :=
  ⟨hn, rfl⟩

theorem steps_pass (hn : c.stop = o.limit) (hmode : mode ≠ .normal) (ho : c.Over (x :: a) d)
    (hm : Move.next (whole 0) ⟨fs, mode, quote, start⟩ (expressionCanFollow c.before) x
      (a ++ d.after).head? (a ++ d.after) = .pass (x :: a).length) :
    Steps o (inside c fs mode quote start) (inside d fs mode quote start) := by
  have hst := (toEnd_inside fs mode quote start hn).steps_of_moveAt hmode ho.after_cons hm
  rwa [← ho.skip]

theorem steps_leave (hn : c.stop = o.limit) (hmode : mode ≠ .normal) (ho : c.Over (x :: a) d)
    (hm : Move.next (whole 0) ⟨fs, mode, quote, start⟩ (expressionCanFollow c.before) x
      (a ++ d.after).head? (a ++ d.after) = .leave (x :: a).length) :
    Steps o (inside c fs mode quote start) (clear d fs) := by
  have hst := (toEnd_inside fs mode quote start hn).steps_of_moveAt hmode ho.after_cons hm
  rwa [← ho.skip]

/-- The inside of a string is gone over. -/
theorem walks_stringBody {q : Char} {body : Text} (hb : IsStringBody q body)
    (hn : c.stop = o.limit) (ho : c.Over body d) :
    Walks o (inside c fs .string [q] start) (inside d fs .string [q] start) := by
  induction hb generalizing c with
  | nil =>
    rw [← ho.skip]
    exact .refl
  | @plain x body hx hbs _ ih =>
    obtain ⟨e, h₁, h₂⟩ := Cursor.Over.split (a := [x]) ho
    refine .head (steps_pass (a := []) hn nofun h₁ ?_) (ih (h₁.stop.trans hn) h₂)
    simp [Move.next, Move.inString, hbs, Ne.symm hx]
  | @escape x body _ ih =>
    obtain ⟨e, h₁, h₂⟩ := Cursor.Over.split (a := ['\\', x]) ho
    refine .head (steps_pass (a := [x]) hn nofun h₁ ?_) (ih (h₁.stop.trans hn) h₂)
    simp [Move.next, Move.inString]

/-- A string is gone over from its first inner character on. -/
theorem walks_string {q : Char} {body : Text} (hq : q ≠ '\\') (hb : IsStringBody q body)
    (hn : c.stop = o.limit) (ho : c.Over (body ++ [q]) d) :
    Walks o (inside c fs .string [q] start) (clear d fs) := by
  obtain ⟨e, h₁, h₂⟩ := ho.split
  refine (walks_stringBody hb hn h₁).tail (steps_leave (a := []) (h₁.stop.trans hn) nofun h₂ ?_)
  simp [Move.next, Move.inString, hq]

/-- A star behind a text does not end a comment. -/
theorem not_infix_concat_star {body : Text} (hb : ¬ ['*', '/'] <:+: body) :
    ¬ ['*', '/'] <:+: body ++ ['*'] := by
  intro hi
  rcases List.infix_concat_iff.mp hi with ⟨p, hp⟩ | hi
  · have hlast := congrArg List.getLast? hp
    simp at hlast
  · exact hb hi

/-- The inside of a comment that ends with the line is gone over. -/
theorem walks_lineComment {body : Text} (hb : '\n' ∉ body) (hn : c.stop = o.limit)
    (ho : c.Over body d) :
    Walks o (inside c fs .lineComment quote start) (inside d fs .lineComment quote start) := by
  rw [← ho.skip]
  exact (toEnd_inside fs .lineComment quote start hn).walks_lineComment rfl hb ho.after

/-- The inside of a comment that ends with a star and a slash is gone over with its end. -/
theorem walks_blockComment {body : Text} (hb : ¬ ['*', '/'] <:+: body) (hn : c.stop = o.limit)
    (ho : c.Over (body ++ ['*', '/']) d) :
    Walks o (inside c fs .blockComment quote start) (clear d fs) := by
  obtain ⟨e, h₁, h₂⟩ := ho.split
  have hb' : ¬ ['*', '/'] <:+: body ++ e.after.take 1 := by
    rw [h₂.after]
    exact not_infix_concat_star hb
  have hw := (toEnd_inside fs .blockComment quote start hn).walks_blockComment rfl hb' h₁.after
  have he : (inside c fs .blockComment quote start).advance body.length =
      inside e fs .blockComment quote start := by rw [← h₁.skip]; rfl
  rw [he] at hw
  refine hw.tail (steps_leave (a := ['/']) (h₁.stop.trans hn) nofun h₂ ?_)
  simp [Move.next, Move.inBlockComment]

/-- A walk over some text settles under the frames that were open before. -/
def Settles (n : Nat) (c d : Cursor) (fs : List Frame) : Prop :=
  ∃ s, Walks (whole n) (clear c fs) s ∧ Settled d fs s

theorem Walks.settles (h : Walks (whole n) (clear c fs) (clear d fs)) : Settles n c d fs :=
  ⟨_, h, .clear⟩

theorem Settles.walks (h : Settles n c d fs) (hd : d.after ≠ []) :
    Walks (whole n) (clear c fs) (clear d fs) := by
  obtain ⟨s, hw, hs⟩ := h
  rwa [← hs.eq_clear hd]

theorem steps_entersLine (fs : List Frame) (hk : contextOf fs = .script) (hn : c.stop = n)
    (ho : c.Over ['/', '/'] d) :
    Steps (whole n) (clear c fs) (inside d fs .lineComment [] (some c.pos)) := by
  have hst := steps_clear fs hn ho.after_cons
  rw [Move.outside_of_script hk] at hst
  rw [← ho.skip]
  exact hst

theorem steps_entersBlock (fs : List Frame) (hk : contextOf fs = .script) (hn : c.stop = n)
    (ho : c.Over ['/', '*'] d) :
    Steps (whole n) (clear c fs) (inside d fs .blockComment [] (some c.pos)) := by
  have hst := steps_clear fs hn ho.after_cons
  rw [Move.outside_of_script hk] at hst
  rw [← ho.skip]
  exact hst

theorem walks_opensTag {name : Text} (hn : c.stop = n) (h : OpensTag (contextOf fs) c name d) :
    Walks (whole n) (clear c fs) (clear d (⟨.tag, name, c.pos, .attrs⟩ :: fs)) := by
  have hst := steps_clear fs hn h.written.after_cons
  rw [Move.outside_of_begins h.begins, Move.opening_of_name h.isName h.ends] at hst
  rw [← h.written.skip]
  exact .single hst

theorem walks_opensFragment (hn : c.stop = n) (h : OpensFragment (contextOf fs) c d) :
    Walks (whole n) (clear c fs) (clear d (⟨.tag, [], c.pos, .children⟩ :: fs)) := by
  have hst := steps_clear fs hn h.written.after_cons
  rw [List.singleton_append, Move.outside_of_begins h.begins] at hst
  rw [← h.written.skip]
  exact .single hst

theorem walks_closes {name closer : Text} {p : Nat} (hn : c.stop = n)
    (h : IsClosingTag name closer) (ho : c.Over closer d) :
    Walks (whole n) (clear c (⟨.tag, name, p, .children⟩ :: fs)) (clear d fs) := by
  obtain ⟨rest, hr, rfl⟩ := h
  have hst := steps_clear (⟨.tag, name, p, .children⟩ :: fs) hn ho.after_cons
  rw [Move.outside_of_markup rfl, List.cons_append, Move.inMarkup_of_closing hr,
    Move.apply_closeTag_clear] at hst
  rw [← ho.skip]
  exact .single hst

/-- The `>` of a tag begins its content. -/
theorem walks_children {name : Text} {p : Nat} (hn : c.stop = n) (hv : isVoid name = false)
    (ho : c.Over ['>'] d) :
    Walks (whole n) (clear c (⟨.tag, name, p, .attrs⟩ :: fs))
      (clear d (⟨.tag, name, p, .children⟩ :: fs)) := by
  have hst := steps_clear (⟨.tag, name, p, .attrs⟩ :: fs) hn ho.after_cons
  have hm : Move.inAttrs (whole 0) ⟨.tag, name, p, .attrs⟩ '>' d.after.head? = .beginChildren := by
    simp [Move.inAttrs, hv]
  rw [Move.outside_of_attrs rfl, List.nil_append, hm] at hst
  rw [← ho.skip]
  exact .single hst

/-- The `>` of a void tag ends it. -/
theorem walks_void {name : Text} {p : Nat} (hn : c.stop = n) (hv : isVoid name = true)
    (ho : c.Over ['>'] d) :
    Walks (whole n) (clear c (⟨.tag, name, p, .attrs⟩ :: fs)) (clear d fs) := by
  have hst := steps_clear (⟨.tag, name, p, .attrs⟩ :: fs) hn ho.after_cons
  have hm : Move.inAttrs (whole 0) ⟨.tag, name, p, .attrs⟩ '>' d.after.head? = .endTag 1 := by
    simp [Move.inAttrs, hv]
  rw [Move.outside_of_attrs rfl, List.nil_append, hm] at hst
  rw [← ho.skip]
  exact .single hst

/-- A tag can end itself. -/
theorem walks_selfClosing {name : Text} {p : Nat} (hn : c.stop = n) (ho : c.Over ['/', '>'] d) :
    Walks (whole n) (clear c (⟨.tag, name, p, .attrs⟩ :: fs)) (clear d fs) := by
  have hst := steps_clear (⟨.tag, name, p, .attrs⟩ :: fs) hn ho.after_cons
  rw [Move.outside_of_attrs rfl] at hst
  rw [← ho.skip]
  exact .single hst

/-- What the grammar derives settles under any frames of its context. -/
theorem settles_of_reads (h : Reads k c d) (fs : List Frame) (hk : contextOf fs = k)
    (hn : c.stop = n) : Settles n c d fs := by
  induction h generalizing fs with
  | nil => exact ⟨_, .refl, .clear⟩
  | plain hr ho hp ih =>
    have hw := (ih fs hk hn).walks (by simp [ho.after])
    exact Walks.settles (hw.tail (steps_plain (hr.stop.trans hn) ho (hk ▸ hp)))
  | @string k c d e q body hr hq hb ho ih =>
    have hw := (ih fs hk hn).walks (by simp [ho.after])
    have hd := hr.stop.trans hn
    obtain ⟨d', h₁, h₂⟩ := Cursor.Over.split (a := [q]) ho
    have hst := steps_clear fs hd h₁.after_cons
    rw [Move.outside_of_quote (hk ▸ hq)] at hst
    have hne : q ≠ '\\' := by
      rintro rfl
      cases k <;> simp [IsQuote] at hq
    refine Walks.settles ((hw.tail hst).trans ?_)
    exact walks_string hne hb ((Cursor.stop_skip 1 d).trans hd) (by rwa [← h₁.skip] at h₂)
  | @lineComment c d e body hr hb ho ih =>
    have hw := (ih fs hk hn).walks (by simp [ho.after])
    have hd := hr.stop.trans hn
    obtain ⟨d', h₁, h₂⟩ := Cursor.Over.split (a := ['/', '/']) ho
    obtain ⟨e', h₃, h₄⟩ := h₂.split
    have hst := steps_entersLine fs hk hd h₁
    refine Walks.settles
      (((hw.tail hst).trans (walks_lineComment hb (h₁.stop.trans hd) h₃)).tail ?_)
    exact steps_leave (a := []) (h₃.stop.trans (h₁.stop.trans hd)) nofun h₄ rfl
  | @lastComment c d e body hr hb ho he ih =>
    have hw := (ih fs hk hn).walks (by simp [ho.after])
    have hd := hr.stop.trans hn
    obtain ⟨d', h₁, h₂⟩ := Cursor.Over.split (a := ['/', '/']) ho
    have hst := steps_entersLine fs hk hd h₁
    exact ⟨_, (hw.tail hst).trans (walks_lineComment hb (h₁.stop.trans hd) h₂), .comment _ he⟩
  | @blockComment c d e body hr hb ho ih =>
    have hw := (ih fs hk hn).walks (by simp [ho.after])
    have hd := hr.stop.trans hn
    obtain ⟨d', h₁, h₂⟩ := Cursor.Over.split (a := ['/', '*']) ho
    have hst := steps_entersBlock fs hk hd h₁
    exact Walks.settles ((hw.tail hst).trans (walks_blockComment hb (h₁.stop.trans hd) h₂))
  | @bracket k c d d' e e' x y hr hp ho hr' ho' ih ih' =>
    have hw := (ih fs hk hn).walks (by simp [ho.after])
    have hd := hr.stop.trans hn
    have hst := steps_clear fs hd ho.after_cons
    rw [Move.outside_of_pair (hk ▸ hp)] at hst
    have hd' := ho.stop.trans hd
    have hw' := (ih' (.bracket x d.pos :: fs) rfl hd').walks (by simp [ho'.after])
    have hst' := steps_clear (.bracket x d.pos :: fs) (hr'.stop.trans hd') ho'.after_cons
    rw [Move.outside_of_script rfl, Move.inScript_of_pair hp, Move.apply_closeBracket_clear] at hst'
    rw [← ho.skip] at hw'
    rw [← ho'.skip]
    exact Walks.settles (((hw.tail hst).trans hw').tail hst')
  | @selfClosing k c d d' e e' name hr ht hr' ho ih ih' =>
    have hw := (ih fs hk hn).walks (by simp [ht.written.after])
    have hd := hr.stop.trans hn
    have hd' := ht.stop.trans hd
    have hw' := (ih' (⟨.tag, name, d.pos, .attrs⟩ :: fs) rfl hd').walks (by simp [ho.after])
    exact Walks.settles ((hw.trans (walks_opensTag hd (hk ▸ ht))).trans
      (hw'.trans (walks_selfClosing (hr'.stop.trans hd') ho)))
  | @void k c d d' e e' name hr ht hv hr' ho ih ih' =>
    have hw := (ih fs hk hn).walks (by simp [ht.written.after])
    have hd := hr.stop.trans hn
    have hd' := ht.stop.trans hd
    have hw' := (ih' (⟨.tag, name, d.pos, .attrs⟩ :: fs) rfl hd').walks (by simp [ho.after])
    exact Walks.settles ((hw.trans (walks_opensTag hd (hk ▸ ht))).trans
      (hw'.trans (walks_void (hr'.stop.trans hd') hv ho)))
  | @element k c d d' e e' f f' name closer hr ht hv hr' ho hr'' hc ho' ih ih' ih'' =>
    have hw := (ih fs hk hn).walks (by simp [ht.written.after])
    have hd := hr.stop.trans hn
    have hd' := ht.stop.trans hd
    have hw' := (ih' (⟨.tag, name, d.pos, .attrs⟩ :: fs) rfl hd').walks (by simp [ho.after])
    have he := hr'.stop.trans hd'
    have he' := ho.stop.trans he
    have hw'' := (ih'' (⟨.tag, name, d.pos, .children⟩ :: fs) rfl he').walks
      (by simp [ho'.after, hc.ne_nil])
    exact Walks.settles ((hw.trans (walks_opensTag hd (hk ▸ ht))).trans
      ((hw'.trans (walks_children he hv ho)).trans
        (hw''.trans (walks_closes (hr''.stop.trans he') hc ho'))))
  | @fragment k c d d' f f' closer hr ht hr' hc ho ih ih' =>
    have hw := (ih fs hk hn).walks (by simp [ht.written.after])
    have hd := hr.stop.trans hn
    have hd' := ht.stop.trans hd
    have hw' := (ih' (⟨.tag, [], d.pos, .children⟩ :: fs) rfl hd').walks
      (by simp [ho.after, hc.ne_nil])
    exact Walks.settles ((hw.trans (walks_opensFragment hd (hk ▸ ht))).trans
      (hw'.trans (walks_closes (hr'.stop.trans hd') hc ho)))

/-- A text that is script is balanced. -/
theorem isBalanced_of_isScript {t : Text} (h : IsScript t) :
    (Scan.ofText t).isBalanced = true := by
  obtain ⟨e, hr, he⟩ := h
  obtain ⟨s, hw, hs⟩ := settles_of_reads hr [] rfl (Cursor.stop_ofText t)
  have hafter : s.cursor.after = [] := by cases hs <;> exact he
  have hend : run (whole t.length) (Scan.start t 0) = s :=
    (inWhole_start t).run_eq_of_after hw hafter
  rw [Scan.ofText, Scan.ofTextFrom, Scan.ofTextWith, hend]
  cases hs <;> rfl

end ScanState

end SnippetGate
