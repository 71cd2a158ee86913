import SnippetGate.Proofs.Balance.Derives
import SnippetGate.Proofs.Balance.Fate
import SnippetGate.Proofs.Balance.WellNested

/-!
# Scans for brackets alone

Without tags a text is a sequence of strings, comments and other characters. A scan that does not
follow tags goes over the strings and comments, and of the other characters it minds the brackets.
It finds nothing wrong just if no string or comment is left open and the brackets are well nested.
Each lexeme either is found wrong or leaves some brackets for the rest to close. For a text in which
no tag can begin, what the scan finds is what the scan with tags finds.
-/

namespace SnippetGate

namespace Grammar

/-- The first text, which stands before the third, is one string, comment or other character. The
second is what it has outside of strings and comments. -/
inductive Lexeme : Text → Text → Text → Prop
  | char {x : Char} {rest : Text} : ¬ IsQuote .script x →
      (x = '/' → rest.head? ≠ some '/' ∧ rest.head? ≠ some '*') → Lexeme [x] [x] rest
  | string {q : Char} {body rest : Text} : IsQuote .script q → IsStringBody q body →
      Lexeme (q :: (body ++ [q])) [] rest
  | lineComment {body rest : Text} : '\n' ∉ body →
      Lexeme ('/' :: '/' :: (body ++ ['\n'])) [] rest
  | lastComment {body : Text} : '\n' ∉ body → Lexeme ('/' :: '/' :: body) [] []
  | blockComment {body rest : Text} : ¬ ['*', '/'] <:+: body →
      Lexeme ('/' :: '*' :: (body ++ ['*', '/'])) [] rest

/-- A text whose strings and block comments all end, and what it has outside of strings and
comments. -/
inductive Leaves : Text → Text → Prop
  | nil : Leaves [] []
  | cons {p v rest w : Text} : Lexeme p v rest → Leaves rest w → Leaves (p ++ rest) (v ++ w)

/-- A text that begins with a string or a block comment and ends inside of it. -/
inductive Unfinished : Text → Prop
  | string {q : Char} {body last : Text} : IsQuote .script q → IsStringBody q body →
      last = [] ∨ last = ['\\'] → Unfinished (q :: (body ++ last))
  | blockComment {body : Text} : ¬ ['*', '/'] <:+: body → Unfinished ('/' :: '*' :: body)

/-- A text that ends inside of a string or a block comment. -/
inductive BreaksOff : Text → Prop
  | here {t : Text} : Unfinished t → BreaksOff t
  | cons {p v rest : Text} : Lexeme p v rest → BreaksOff rest → BreaksOff (p ++ rest)

variable {p v w rest t : Text}

theorem Lexeme.ne_nil (h : Lexeme p v rest) : p ≠ [] := by
  cases h <;> exact List.cons_ne_nil _ _

theorem BreaksOff.ne_nil (h : BreaksOff t) : t ≠ [] := by
  induction h with
  | here h => cases h <;> exact List.cons_ne_nil _ _
  | cons hl _ ih => exact fun he => ih (List.append_eq_nil_iff.mp he).2

/-- Behind a quote the string ends, or the text ends inside of it. -/
theorem exists_stringBody (q : Char) (t : Text) : ∃ body, IsStringBody q body ∧
    ((∃ rest, t = body ++ q :: rest) ∨ ∃ last, (last = [] ∨ last = ['\\']) ∧ t = body ++ last) := by
  induction t using List.twoStepInduction with
  | nil => exact ⟨[], .nil, .inr ⟨[], .inl rfl, rfl⟩⟩
  | singleton x =>
    by_cases hx : x = q
    · subst hx
      exact ⟨[], .nil, .inl ⟨[], rfl⟩⟩
    · by_cases hb : x = '\\'
      · subst hb
        exact ⟨[], .nil, .inr ⟨['\\'], .inr rfl, rfl⟩⟩
      · exact ⟨[x], .plain hx hb .nil, .inr ⟨[], .inl rfl, rfl⟩⟩
  | cons_cons x y t ih ih' =>
    by_cases hx : x = q
    · subst hx
      exact ⟨[], .nil, .inl ⟨y :: t, rfl⟩⟩
    by_cases hb : x = '\\'
    · subst hb
      obtain ⟨body, hbody, ⟨rest, rfl⟩ | ⟨last, hlast, rfl⟩⟩ := ih
      · exact ⟨'\\' :: y :: body, .escape hbody, .inl ⟨rest, rfl⟩⟩
      · exact ⟨'\\' :: y :: body, .escape hbody, .inr ⟨last, hlast, rfl⟩⟩
    · obtain ⟨body, hbody, ⟨rest, he⟩ | ⟨last, hlast, he⟩⟩ := ih' y
      · exact ⟨x :: body, .plain hx hb hbody, .inl ⟨rest, by rw [he, List.cons_append]⟩⟩
      · exact ⟨x :: body, .plain hx hb hbody, .inr ⟨last, hlast, by rw [he, List.cons_append]⟩⟩

/-- The first star and slash of a text. -/
theorem exists_blockBody (h : ['*', '/'] <:+: t) :
    ∃ body rest, t = body ++ '*' :: '/' :: rest ∧ ¬ ['*', '/'] <:+: body := by
  induction t with
  | nil => simp at h
  | cons x t ih =>
    by_cases hp : ['*', '/'] <+: x :: t
    · obtain ⟨rest, he⟩ := hp
      exact ⟨[], rest, he.symm, by simp⟩
    · obtain ⟨body, rest, rfl, hbody⟩ := ih ((List.infix_cons_iff.mp h).resolve_left hp)
      refine ⟨x :: body, rest, rfl, fun hi => ?_⟩
      rcases List.infix_cons_iff.mp hi with hi | hi
      · exact hp (hi.trans ⟨'*' :: '/' :: rest, rfl⟩)
      · exact hbody hi

/-- A text begins with a lexeme, unless it ends inside of the first one. -/
theorem exists_lexeme (ht : t ≠ []) :
    (∃ p v rest, t = p ++ rest ∧ Lexeme p v rest) ∨ Unfinished t := by
  obtain ⟨x, r, rfl⟩ := List.exists_cons_of_ne_nil ht
  by_cases hq : IsQuote .script x
  · obtain ⟨body, hbody, ⟨rest, rfl⟩ | ⟨last, hlast, rfl⟩⟩ := exists_stringBody x r
    · exact .inl ⟨_, _, rest, by simp, .string hq hbody⟩
    · exact .inr (.string hq hbody hlast)
  by_cases hline : x = '/' ∧ r.head? = some '/'
  · obtain ⟨rfl, hr⟩ := hline
    obtain ⟨r, rfl⟩ := List.head?_eq_some_iff.mp hr
    by_cases hn : '\n' ∈ r
    · obtain ⟨body, rest, rfl, hbody⟩ := List.eq_append_cons_of_mem hn
      exact .inl ⟨_, _, rest, by simp, .lineComment hbody⟩
    · exact .inl ⟨_, _, [], by simp, .lastComment hn⟩
  by_cases hblock : x = '/' ∧ r.head? = some '*'
  · obtain ⟨rfl, hr⟩ := hblock
    obtain ⟨r, rfl⟩ := List.head?_eq_some_iff.mp hr
    by_cases hi : ['*', '/'] <:+: r
    · obtain ⟨body, rest, rfl, hbody⟩ := exists_blockBody hi
      exact .inl ⟨_, _, rest, by simp, .blockComment hbody⟩
    · exact .inr (.blockComment hi)
  · exact .inl ⟨[x], [x], r, rfl, .char hq fun hx =>
      ⟨fun h => hline ⟨hx, h⟩, fun h => hblock ⟨hx, h⟩⟩⟩

theorem leaves_or_breaksOff (t : Text) : (∃ w, Leaves t w) ∨ BreaksOff t := by
  induction hn : t.length using Nat.strong_induction_on generalizing t with
  | _ n ih =>
    by_cases ht : t = []
    · subst ht
      exact .inl ⟨[], .nil⟩
    rcases exists_lexeme ht with ⟨p, v, rest, rfl, hl⟩ | hu
    · have hlt : rest.length < n := by
        have := List.length_pos_iff.mpr hl.ne_nil
        rw [← hn, List.length_append]
        omega
      rcases ih _ hlt rest rfl with ⟨w, hw⟩ | hb
      · exact .inl ⟨v ++ w, .cons hl hw⟩
      · exact .inr (.cons hl hb)
    · exact .inr (.here hu)

end Grammar

/-! ### Brackets of a text -/

/-- The brackets of a text, without all else. -/
def bracketsIn (pairs : List (Char × Char)) (t : Text) : Text :=
  t.filter (· ∈ bracketsOf pairs)

theorem bracketsIn_append (pairs : List (Char × Char)) (a b : Text) :
    bracketsIn pairs (a ++ b) = bracketsIn pairs a ++ bracketsIn pairs b :=
  List.filter_append ..

theorem bracketsIn_singleton {pairs : List (Char × Char)} {x : Char} (h : x ∈ bracketsOf pairs) :
    bracketsIn pairs [x] = [x] := by
  simp [bracketsIn, h]

theorem bracketsIn_singleton_of_notMem {pairs : List (Char × Char)} {x : Char}
    (h : x ∉ bracketsOf pairs) : bracketsIn pairs [x] = [] := by
  simp [bracketsIn, h]

namespace ScanOptions

variable {o : ScanOptions} {x y : Char}

theorem isOpener_iff : o.isOpener x = true ↔ ∃ y, (x, y) ∈ o.pairs := by
  simp [isOpener]

theorem openerOf?_eq_none_iff : o.openerOf? y = none ↔ ∀ x, (x, y) ∉ o.pairs := by
  simp only [openerOf?, Option.map_eq_none_iff, List.find?_eq_none, List.mem_reverse, beq_iff_eq]
  exact ⟨fun h x hx => h _ hx rfl, fun h p hp he => h p.1 (he ▸ hp)⟩

theorem mem_of_openerOf? (h : o.openerOf? y = some x) : (x, y) ∈ o.pairs := by
  obtain ⟨⟨a, b⟩, hab, rfl⟩ := Option.map_eq_some_iff.mp h
  obtain rfl : b = y := by simpa using List.find?_some hab
  exact List.mem_reverse.mp (List.mem_of_find?_eq_some hab)

/-- The options of a scan to the end that looks for brackets and nothing else. -/
structure SeeksBrackets (o : ScanOptions) : Prop where
  goesOn : o.stopsWhenBalanced = false
  tagless : o.tracksTags = false
  brackets : AreBrackets o.pairs

end ScanOptions

namespace Move

variable {o : ScanOptions} {fs : List Frame} {b : Bool} {x z : Char} {y : Option Char} {rest : Text}

theorem outside_of_tagless (h : o.tracksTags = false) :
    outside o fs b x y rest = inScript o b x y rest := by
  cases fs <;> simp [outside, h]

/-- The move at a character that begins neither a string nor a comment. -/
theorem inScript_of_char (h : o.tracksTags = false) (hq : ¬ Grammar.IsQuote .script x)
    (hslash : x = '/' → y ≠ some '/' ∧ y ≠ some '*') :
    inScript o b x y rest =
      if o.isOpener x then openBracket x
      else
        match o.openerOf? x with
        | some opener => closeBracket opener x
        | none => pass 1 := by
  have hq' : ¬ (x = '\x22' ∨ x = '\x27' ∨ x = '\x60') := hq
  rw [inScript, if_neg hq', if_neg fun hx => (hslash hx.1).1 hx.2,
    if_neg fun hx => (hslash hx.1).2 hx.2]
  split
  · rfl
  · cases o.openerOf? x with
    | none => simp [h]
    | some z => rfl

end Move

/-! ### What a scan for brackets alone does -/

namespace ScanState

open Grammar

variable {o : ScanOptions} {c d : Cursor} {fs : List Frame} {x y : Char}
  {p v w r s t rest : Text} {u : ScanState}

/-- The open frames are these brackets. -/
def AreOpen (fs : List Frame) (s : Text) : Prop :=
  List.Forall₂ (fun f x => f = .bracket x f.pos) fs s

/-- Nothing is wrong where the walk ends. -/
structure Flawless (u : ScanState) : Prop where
  issues : u.issues = []
  mode : u.stack.mode = .normal ∨ u.stack.mode = .lineComment
  frames : u.stack.frames = []

theorem isBalanced_outcome_iff (hc : u.closedAt? = none) (t : Text) :
    (u.outcome t).isBalanced = true ↔ u.Flawless := by
  constructor
  · intro h
    obtain ⟨hi, hm, hf⟩ := of_isBalanced_outcome hc h
    exact ⟨hi, hm, hf⟩
  · rintro ⟨hi, hm, hf⟩
    rcases hm with hm | hm <;> simp [outcome, hc, hi, openText, hm, openFrames, hf, Scan.isBalanced]

/-- An issue stays. -/
theorem issues_run_ne_nil (h : u.issues ≠ []) : (run o u).issues ≠ [] := by
  refine (walks_run o u).keeps (P := fun u => u.issues ≠ []) (fun hst hu => ?_) h
  obtain ⟨x, rest, -, -, hissues⟩ := hst.exists_apply
  rw [hissues]
  exact issues_apply_ne_nil hu _

/-- What became of a scan with the open brackets `s` on its way over a text with the brackets `v`.
It found something wrong, and no word that begins with `v` closes `s`; or it goes on, with brackets
that are left to close. -/
inductive Follows (o : ScanOptions) (d : Cursor) (s v : Text) (u : ScanState) : Prop
  | flawed : u.issues ≠ [] → (∀ w, ¬ Closes o.pairs s (v ++ w)) → Follows o d s v u
  | settled {fs : List Frame} {s' : Text} : Settled d fs u → AreOpen fs s' →
      (∀ w, Closes o.pairs s (v ++ w) ↔ Closes o.pairs s' w) → Follows o d s v u

section Lexemes

variable (ho : o.SeeksBrackets)

include ho

theorem steps_inScript (fs : List Frame) (hn : c.stop = o.limit) (ha : c.after = x :: r) :
    Steps o (clear c fs)
      ((Move.inScript o (expressionCanFollow c.before) x r.head? r).apply (clear c fs)) := by
  have hst := ToEnd.next? (o := o) (s := clear c fs) ⟨hn, rfl⟩ ha (.inl ho.goesOn)
  have hm : Move.next o (clear c fs).stack (expressionCanFollow c.before) x r.head? r =
      Move.inScript o (expressionCanFollow c.before) x r.head? r :=
    Move.outside_of_tagless ho.tagless
  rwa [← hm]

/-- A closing bracket closes the innermost one that is open, or something is wrong. -/
theorem follows_closeBracket (hover : c.Over [x] d) (hx : (y, x) ∈ o.pairs) (hs : AreOpen fs s) :
    Follows o d s [x] ((Move.closeBracket y x).apply (clear c fs)) := by
  cases hs with
  | nil =>
    refine .flawed (by simp [Move.apply, clear, closeBracket, advance, report]) fun w hw => ?_
    obtain ⟨s', hs', -⟩ := (closes_closer_iff ho.brackets hx).mp hw
    cases hs'
  | @cons f z fs s hf hs =>
    by_cases hz : z = y
    · subst hz
      rw [hf, Move.apply_closeBracket_clear]
      refine .settled ?_ hs fun w => ?_
      · rw [← hover.skip]
        exact .clear
      · rw [List.singleton_append, closes_closer_iff ho.brackets hx]
        simp
    · refine .flawed ?_ fun w hw => ?_
      · rw [hf]
        simp [Move.apply, clear, closeBracket, advance, report, pop, Frame.bracket, hz]
      · obtain ⟨s', hs', -⟩ := (closes_closer_iff ho.brackets hx).mp hw
        exact hz (List.cons.inj hs').1

/-- A character on its own opens or closes a bracket, or is passed over. -/
theorem exists_follows_char (hn : c.stop = o.limit) (hover : c.Over [x] d)
    (hq : ¬ IsQuote .script x) (hslash : x = '/' → d.after.head? ≠ some '/' ∧
      d.after.head? ≠ some '*') (hs : AreOpen fs s) :
    ∃ u, Walks o (clear c fs) u ∧ Follows o d s (bracketsIn o.pairs [x]) u := by
  have hst := steps_inScript ho fs hn hover.after_cons
  rw [List.nil_append, Move.inScript_of_char ho.tagless hq hslash] at hst
  refine ⟨_, .single hst, ?_⟩
  by_cases hopen : o.isOpener x = true
  · obtain ⟨y, hxy⟩ := ScanOptions.isOpener_iff.mp hopen
    rw [if_pos hopen, bracketsIn_singleton (AreBrackets.mem_bracketsOf.mpr (.inl ⟨y, hxy⟩))]
    have hs' : AreOpen (.bracket x c.pos :: fs) (x :: s) := .cons rfl hs
    refine .settled ?_ hs' fun w => closes_opener_iff ho.brackets hxy
    rw [← hover.skip]
    exact .clear
  rw [if_neg hopen]
  cases hc : o.openerOf? x with
  | none =>
    have hx : x ∉ bracketsOf o.pairs := by
      rw [AreBrackets.mem_bracketsOf, not_or, not_exists, not_exists]
      exact ⟨fun y hy => hopen (ScanOptions.isOpener_iff.mpr ⟨y, hy⟩),
        ScanOptions.openerOf?_eq_none_iff.mp hc⟩
    rw [bracketsIn_singleton_of_notMem hx]
    refine .settled ?_ hs fun w => Iff.rfl
    rw [← hover.skip]
    exact .clear
  | some y =>
    have hy := ScanOptions.mem_of_openerOf? hc
    rw [bracketsIn_singleton (AreBrackets.mem_bracketsOf.mpr (.inr ⟨y, hy⟩))]
    exact follows_closeBracket ho hover hy hs

/-- Inside of a string from its quote on. -/
theorem steps_quote (fs : List Frame) (hn : c.stop = o.limit) (hover : c.Over [x] d)
    (hq : IsQuote .script x) :
    Steps o (clear c fs) (inside d fs .string [x] (some c.pos)) := by
  have hst := steps_inScript ho fs hn hover.after_cons
  have hm : ∀ b y rest, Move.inScript o b x y rest = .enter .string [x] 1 := fun _ _ _ => if_pos hq
  rw [hm] at hst
  rwa [← hover.skip]

/-- Inside of a comment from its two signs on. -/
theorem steps_comment (fs : List Frame) {mode : Mode} (hn : c.stop = o.limit)
    (hover : c.Over ['/', y] d)
    (hy : y = '/' ∧ mode = .lineComment ∨ y = '*' ∧ mode = .blockComment) :
    Steps o (clear c fs) (inside d fs mode [] (some c.pos)) := by
  have hst := steps_inScript ho fs hn hover.after_cons
  have hm : ∀ b rest, Move.inScript o b '/' (some y) rest = .enter mode [] 2 := by
    rcases hy with ⟨rfl, rfl⟩ | ⟨rfl, rfl⟩ <;> simp [Move.inScript]
  rw [List.singleton_append, List.head?_cons, hm] at hst
  rwa [← hover.skip]

/-- Strings and comments are gone over. -/
theorem exists_follows (hl : Lexeme p v d.after) (hn : c.stop = o.limit) (hover : c.Over p d)
    (hs : AreOpen fs s) :
    ∃ u, Walks o (clear c fs) u ∧ Follows o d s (bracketsIn o.pairs v) u := by
  have hsilent {u : ScanState} (hw : Walks o (clear c fs) u) (hu : Settled d fs u) :
      ∃ u, Walks o (clear c fs) u ∧ Follows o d s (bracketsIn o.pairs []) u :=
    ⟨u, hw, .settled hu hs fun _ => Iff.rfl⟩
  generalize hr : d.after = rest at hl
  cases hl with
  | char hq hslash => exact exists_follows_char ho hn hover hq (hr ▸ hslash) hs
  | @string q body _ hq hb =>
    obtain ⟨e, h₁, h₂⟩ := Cursor.Over.split (a := [q]) hover
    have hne : q ≠ '\\' := by
      rintro rfl
      simp [IsQuote] at hq
    exact hsilent (.head (steps_quote ho fs hn h₁ hq) (walks_string hne hb (h₁.stop.trans hn) h₂))
      .clear
  | @lineComment body _ hb =>
    obtain ⟨e, h₁, hinside⟩ := Cursor.Over.split (a := ['/', '/']) hover
    obtain ⟨e', h₂, h₃⟩ := hinside.split
    have he := h₁.stop.trans hn
    have hend : Steps o (inside e' fs .lineComment [] (some c.pos)) (clear d fs) :=
      steps_leave (a := []) (h₂.stop.trans he) (by decide) h₃ rfl
    exact hsilent (.head (steps_comment ho fs hn h₁ (.inl ⟨rfl, rfl⟩))
      ((walks_lineComment hb he h₂).tail hend)) .clear
  | @lastComment body hb =>
    obtain ⟨e, h₁, h₂⟩ := Cursor.Over.split (a := ['/', '/']) hover
    exact hsilent (.head (steps_comment ho fs hn h₁ (.inl ⟨rfl, rfl⟩))
      (walks_lineComment hb (h₁.stop.trans hn) h₂)) (.comment _ hr)
  | @blockComment body _ hb =>
    obtain ⟨e, h₁, h₂⟩ := Cursor.Over.split (a := ['/', '*']) hover
    exact hsilent (.head (steps_comment ho fs hn h₁ (.inr ⟨rfl, rfl⟩))
      (walks_blockComment hb (h₁.stop.trans hn) h₂)) .clear

/-- From a settled place a scan goes over the next lexeme. -/
theorem exists_run_eq (hl : Lexeme p v rest) (hr : d.after = p ++ rest) (hn : d.stop = o.limit)
    (hu : Settled d fs u) (hs : AreOpen fs s) :
    ∃ e u', e.after = rest ∧ e.stop = o.limit ∧ run o u = run o u' ∧
      Follows o e s (bracketsIn o.pairs v) u' := by
  have hover := Cursor.over_skip hr
  have hrest : (d.skip p.length).after = rest := by rw [Cursor.after_skip, hr, List.drop_left]
  obtain ⟨u', hwalk, hfollows⟩ := exists_follows ho (hrest ▸ hl) hn hover hs
  refine ⟨_, u', hrest, hover.stop.trans hn, ?_, hfollows⟩
  rw [hu.eq_clear (by simp [hr, hl.ne_nil]), run_eq_of_walks hwalk]

/-- Over a text whose strings and comments all end, nothing is wrong just if its brackets close what
was open before. -/
theorem flawless_run_iff (hw : Leaves r w) (hr : d.after = r) (hn : d.stop = o.limit)
    (hu : Settled d fs u) (hs : AreOpen fs s) :
    Flawless (run o u) ↔ Closes o.pairs s (bracketsIn o.pairs w) := by
  induction hw generalizing d fs u s with
  | nil =>
    have hafter : u.cursor.after = [] := by cases hu <;> exact hr
    have hfs : fs = [] ↔ s = [] := by cases hs <;> simp
    rw [run_eq_self (next?_of_after hafter), bracketsIn, List.filter_nil, closes_nil_right_iff,
      ← hfs]
    constructor
    · intro h
      have hframes := h.frames
      cases hu <;> exact hframes
    · rintro rfl
      cases hu with
      | clear => exact ⟨rfl, .inl rfl, rfl⟩
      | comment => exact ⟨rfl, .inr rfl, rfl⟩
  | cons hl _ ih =>
    obtain ⟨e, u', he, hstop, hrun, hfollows⟩ := exists_run_eq ho hl hr hn hu hs
    rw [hrun, bracketsIn_append]
    cases hfollows with
    | flawed hissues hno =>
      exact iff_of_false (fun h => issues_run_ne_nil hissues h.issues) (hno _)
    | settled hu' hs' hiff =>
      rw [hiff]
      exact ih he hstop hu' hs'

/-- A string or a block comment that does not end is wrong. -/
theorem not_flawless_of_unfinished (ht : Unfinished t) (hr : c.after = t) (hn : c.stop = o.limit) :
    ¬ Flawless (run o (clear c fs)) := by
  have hopen {d : Cursor} {mode : Mode} {quote : Text} {start : Option Nat}
      (hw : Walks o (clear c fs) (inside d fs mode quote start)) (hd : d.after = [])
      (hm : mode = .string ∨ mode = .blockComment) : ¬ Flawless (run o (clear c fs)) := by
    intro h
    rw [run_eq_of_walks hw, run_eq_self (next?_of_after hd)] at h
    rcases hm with rfl | rfl <;> rcases h.mode with hm | hm <;> cases hm
  have hover := Cursor.over_skip (hr.trans (List.append_nil t).symm)
  have hend : (c.skip t.length).after = [] := by rw [Cursor.after_skip, hr, List.drop_length]
  generalize c.skip t.length = d at hover hend
  cases ht with
  | @string q body last hq hb hlast =>
    obtain ⟨e, h₁, hinside⟩ := Cursor.Over.split (a := [q]) hover
    obtain ⟨e', h₂, h₃⟩ := hinside.split
    have he := h₁.stop.trans hn
    have hw := (walks_stringBody hb he h₂).head (steps_quote ho fs hn h₁ hq)
    rcases hlast with rfl | rfl
    · refine hopen hw ?_ (.inl rfl)
      rw [h₃.after, hend]
      rfl
    · -- the escape reaches beyond the end of the text
      have hst := (toEnd_inside fs .string [q] (some c.pos) (h₂.stop.trans he)).steps_of_moveAt
        (m := .pass 2) (by simp [inside]) h₃.after_cons rfl
      refine hopen (d := e'.skip 2) (hw.tail hst) ?_ (.inl rfl)
      rw [Cursor.after_skip, h₃.after, hend]
      rfl
  | @blockComment body hb =>
    obtain ⟨e, h₁, h₂⟩ := Cursor.Over.split (a := ['/', '*']) hover
    have hafter : e.after = body ++ [] := by rw [h₂.after, hend]
    have hw := (toEnd_inside fs .blockComment [] (some c.pos)
      (h₁.stop.trans hn)).walks_blockComment rfl (by simpa using hb) hafter
    have hbegin := steps_comment ho fs hn h₁ (.inr ⟨rfl, rfl⟩)
    refine hopen (d := e.skip body.length) (hw.head hbegin) ?_ (.inr rfl)
    rw [h₂.skip, hend]

/-- A text that breaks off is wrong, whatever was open before. -/
theorem not_flawless_run (ht : BreaksOff t) (hr : d.after = t) (hn : d.stop = o.limit)
    (hu : Settled d fs u) (hs : AreOpen fs s) : ¬ Flawless (run o u) := by
  induction ht generalizing d fs u s with
  | here ht =>
    rw [hu.eq_clear (hr ▸ (BreaksOff.here ht).ne_nil)]
    exact not_flawless_of_unfinished ho ht hr hn
  | cons hl _ ih =>
    obtain ⟨e, u', he, hstop, hrun, hfollows⟩ := exists_run_eq ho hl hr hn hu hs
    rw [hrun]
    cases hfollows with
    | flawed hissues _ => exact fun h => issues_run_ne_nil hissues h.issues
    | settled hu' hs' _ => exact ih he hstop hu' hs'

end Lexemes

/-! ### Without tags -/

/-- A scan that is not to stop does not. -/
theorem closedAt?_run (hgo : o.stopsWhenBalanced = false) (hu : u.closedAt? = none) :
    (run o u).closedAt? = none := by
  refine (walks_run o u).keeps (P := fun u => u.closedAt? = none) (fun hst hu => ?_) hu
  obtain ⟨-, x, rest, -, rfl | rfl⟩ := hst.exists_move
  · rw [Move.closedAt?_apply, hu]
  · simp [noteBalance, hgo, hu]

/-- If two scans take the same steps from all places of the one, they end at the same place. -/
theorem run_congr {o' : ScanOptions} (h : ∀ v, Walks o u v → next? o v = next? o' v) :
    run o u = run o' u := by
  have hw : Walks o' u (run o u) := by
    have hboth := (walks_run o u).keeps (P := fun v => Walks o u v ∧ Walks o' u v)
      (fun {v v'} hst hv => ⟨hv.1.tail hst, hv.2.tail ((h v hv.1).symm.trans hst)⟩) ⟨.refl, .refl⟩
    exact hboth.2
  rw [run_eq_of_walks hw, run_eq_self ((h _ (walks_run o u)).symm.trans (next?_run o u))]

/-- Under brackets alone, a character that begins no tag is read in the same way with tags and
without. -/
theorem next?_tracking (hf : ∀ f ∈ u.stack.frames, f.kind = .bracket)
    (hlt : '<' ∉ u.cursor.after) :
    next? { o with tracksTags := false } u = next? { o with tracksTags := true } u := by
  have hcontext : u.stack.context = .script := by
    rw [BracketStack.context]
    split
    · rfl
    · next f fs hfs => simp [Frame.context, hf f (by simp [hfs])]
  have hmove (x : Char) (rest : Text) (hx : x ≠ '<') :
      move { o with tracksTags := false } u x rest =
        move { o with tracksTags := true } u x rest := by
    cases hm : u.stack.mode with
    | normal =>
      rw [move_of_script hm fun _ => hcontext, move_of_script hm fun _ => hcontext]
      simp only [Move.inScript, hx, and_false, if_false]
      rfl
    | _ => simp only [move, Move.next, hm, second?]
  unfold next?
  cases ha : u.cursor.after with
  | nil => rfl
  | cons x rest =>
    have hx : x ≠ '<' := fun he => hlt (by rw [ha, he]; exact List.mem_cons_self)
    simp only [step_eq_apply, hmove x rest hx]
    rfl

end ScanState

namespace Scan

open ScanState Grammar

/-- For a text in which no tag can begin, it makes no difference whether tags are followed. -/
theorem ofTextWith_tracking {t : Text} (hlt : '<' ∉ t) (i : Nat) (o : ScanOptions) :
    ofTextWith t i { o with tracksTags := false } =
      ofTextWith t i { o with tracksTags := true } := by
  rw [ofTextWith, ofTextWith]
  congr 1
  refine run_congr fun v hv => next?_tracking ?_ ?_
  · exact (Walks.orderly hv).nested.tracked rfl
  · rw [(Walks.orderly hv).after]
    exact fun h => hlt (List.mem_of_mem_drop h)

/-- A scan for brackets alone finds nothing wrong if and only if all strings and block comments of
the text end, and its brackets outside of strings and comments are well nested. For a text without a
`<`, what a scan for the usual brackets finds is all that the scan with tags finds. -/
theorem isBalanced_iff_wellNested (t : Text) {pairs : List (Char × Char)} (hp : AreBrackets pairs) :
    ((ofTextWith t 0 (({ limit := t.length, tracksTags := false } : ScanOptions).withPairs
        pairs)).isBalanced = true ↔
      (∃ w, Leaves t w) ∧ ∀ w, Leaves t w → WellNested pairs (bracketsIn pairs w)) ∧
    ('<' ∉ t → ofTextWith t 0 { limit := t.length, tracksTags := false } = ofText t) := by
  refine ⟨?_, fun hlt => ofTextWith_tracking hlt 0 { limit := t.length }⟩
  let o : ScanOptions := { limit := t.length, pairs := pairs, tracksTags := false }
  have ho : o.SeeksBrackets := ⟨rfl, rfl, hp⟩
  have hn : (Cursor.ofText t).stop = o.limit := Cursor.stop_ofText t
  have hissues : (ofTextWith t 0 o).isBalanced = true ↔ Flawless (run o (start t 0)) :=
    isBalanced_outcome_iff (closedAt?_run rfl rfl) t
  have hwell {w : Text} (hw : Leaves t w) :
      Flawless (run o (start t 0)) ↔ WellNested pairs (bracketsIn pairs w) :=
    (flawless_run_iff ho hw rfl hn .clear .nil).trans closes_nil_iff
  rw [show ({ limit := t.length, tracksTags := false } : ScanOptions).withPairs pairs = o from rfl,
    hissues]
  constructor
  · intro h
    rcases leaves_or_breaksOff t with hw | hb
    · exact ⟨hw, fun w hw => (hwell hw).mp h⟩
    · exact absurd h (not_flawless_run ho hb rfl hn .clear .nil)
  · rintro ⟨⟨w, hw⟩, h⟩
    exact (hwell hw).mpr (h w hw)

theorem isBalanced_iff_wellNested_closerInString :
    let t := "f(')', [a]) // ]".toList
    let pairs := [('(', ')'), ('[', ']')]
    AreBrackets pairs ∧ (∃ w, Leaves t w ∧ WellNested pairs (bracketsIn pairs w)) ∧
      ofTextWith t 0 { limit := t.length, tracksTags := false } = ofText t := by
  intro t pairs
  have hp : AreBrackets pairs := by decide
  obtain ⟨hiff, htags⟩ := isBalanced_iff_wellNested t hp
  obtain ⟨⟨w, hw⟩, h⟩ := hiff.mp (by decide +kernel)
  exact ⟨hp, ⟨w, hw, h w hw⟩, htags (by decide)⟩

end Scan

end SnippetGate
