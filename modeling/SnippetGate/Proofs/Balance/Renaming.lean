import SnippetGate.Proofs.Balance.Parallel
import SnippetGate.Proofs.Balance.Strings
import SnippetGate.Proofs.Balance.Within

/-!
# Components under other names

A scan compares the names of tags with each other and with the void elements, and does nothing else
with them. So an element may get another name that does not occur in it, if both names are void or
neither is. As void elements are told without regard to case, some names of components are void.
-/

namespace SnippetGate

open ScanState Grammar

/-- The name of a component: an upper-case letter, and then letters and digits. -/
def IsComponentName (name : Text) : Prop :=
  ∃ x r, name = x :: r ∧ x.isUpper = true ∧ ∀ y ∈ r, y.isAlphanum = true

/-- An element with the given content, in parentheses. -/
def element (name content : Text) : Text :=
  "(<".toList ++ name ++ ['>'] ++ content ++ (Closer.tag name).display ++ [')']

/-- Around content in which neither name occurs, elements of both names are balanced alike. -/
def Interchangeable (a b : Text) : Prop :=
  ∀ c, ¬ a <:+: c → ¬ b <:+: c →
    (Scan.ofText (element a c)).isBalanced = (Scan.ofText (element b c)).isBalanced

/-! ### Names -/

theorem IsComponentName.isTagName {name : Text} (h : IsComponentName name) : IsTagName name := by
  obtain ⟨x, r, rfl, hx, hr⟩ := h
  refine ⟨x, r, rfl, by simp [Char.isAlpha, hx], fun y hy => ?_⟩
  simp [isTagNameChar, isWord, isAlphanumeric_of_isAlphanum (hr y hy)]

theorem IsTagName.ne_singleton {name : Text} {x : Char} (h : IsTagName name)
    (hx : x.isAlpha = false) : name ≠ [x] := by
  rintro rfl
  obtain ⟨y, r, he, hy, -⟩ := h
  obtain ⟨rfl, -⟩ := List.cons.inj he
  rw [hx] at hy
  cases hy

theorem IsTagName.ne_nil {name : Text} (h : IsTagName name) : name ≠ [] := by
  obtain ⟨x, r, rfl, -⟩ := h
  exact List.cons_ne_nil x r

/-- Names of which both are void or neither is can change places. -/
theorem renames_swap {a b : Text} (ha : IsTagName a) (hb : IsTagName b)
    (h : isVoid a = isVoid b) : Renames (Equiv.swap a b) where
  injective := (Equiv.swap a b).injective
  isVoid name := by
    rw [Equiv.swap_apply_def]
    split
    · next he => rw [he, h]
    split
    · next he => rw [he, h]
    · rfl
  bracket x hx := by
    have halpha : x.isAlpha = false := by rcases hx with rfl | rfl | rfl <;> rfl
    exact Equiv.swap_apply_of_ne_of_ne (ha.ne_singleton halpha).symm (hb.ne_singleton halpha).symm
  fragment := Equiv.swap_apply_of_ne_of_ne ha.ne_nil.symm hb.ne_nil.symm

/-- A name that is written before a character which is part of no name is written before that. -/
theorem infix_of_infix_concat {name c : Text} {x : Char} (h : IsTagName name)
    (hx : isTagNameChar x = false) (hi : name <:+: c ++ [x]) : name <:+: c := by
  refine (List.infix_concat_iff.mp hi).resolve_left fun hs => ?_
  have hlast := hs.getLast h.ne_nil
  rw [List.getLast_append_singleton] at hlast
  have hmem : x ∈ name := hlast ▸ List.getLast_mem h.ne_nil
  rw [h.isTagNameChar x hmem] at hx
  cases hx

theorem fixesNames_swap {a b c : Text} (ha : ¬ a <:+: c) (hb : ¬ b <:+: c) :
    Move.FixesNames (Equiv.swap a b) (c ++ ['<']) := by
  intro name hname hi
  have hin := infix_of_infix_concat hname rfl hi
  exact Equiv.swap_apply_of_ne_of_ne (fun he => ha (he ▸ hin)) (fun he => hb (he ▸ hin))

/-! ### Into the element -/

variable {a b c r : Text} {g : Text → Text} {ρ : Nat → Nat → Prop} {s u : ScanState} {n n' : Nat}

theorem element_eq (a c : Text) :
    element a c = '(' :: '<' :: (a ++ '>' :: (c ++ ((Closer.tag a).display ++ [')']))) := by
  simp [element]

namespace ScanState

/-- What is open behind the opening tag of an element in parentheses: not the tag, if it is void. -/
def framesInElement (name : Text) : List Frame :=
  if isVoid name then [.bracket '(' 0] else [⟨.tag, name, 1, .children⟩, .bracket '(' 0]

/-- The place behind the opening tag of an element in parentheses. -/
def inElement (name content : Text) : ScanState :=
  clear ⟨name.length + 3, '>' :: (name.reverse ++ ['<', '(']),
    content ++ ((Closer.tag name).display ++ [')'])⟩ (framesInElement name)

theorem walks_inElement (ha : IsTagName a) (c : Text) :
    Walks (whole (element a c).length) (Scan.start (element a c) 0) (inElement a c) := by
  have hn : (Scan.start (element a c) 0).cursor.stop = (element a c).length :=
    (inWhole_start _).stop
  have hstart : Scan.start (element a c) 0 = clear ⟨0, [], element a c⟩ [] := rfl
  rw [hstart] at hn ⊢
  generalize (element a c).length = n at hn ⊢
  rw [element_eq] at hn ⊢
  unfold inElement
  generalize c ++ ((Closer.tag a).display ++ [')']) = r at hn ⊢
  have hparen : Cursor.Over ⟨0, [], '(' :: '<' :: (a ++ '>' :: r)⟩ ['(']
      ⟨1, ['('], '<' :: (a ++ '>' :: r)⟩ := ⟨rfl, rfl, rfl⟩
  have htag : OpensTag (contextOf [.bracket '(' 0]) ⟨1, ['('], '<' :: (a ++ '>' :: r)⟩ a
      ⟨a.length + 2, a.reverse ++ ['<', '('], '>' :: r⟩ :=
    { written := ⟨rfl, by simp, by simp; omega⟩
      isName := ha
      ends := by simp [EndsTagName]; rfl
      begins := by
        obtain ⟨x, q, rfl, hx, -⟩ := ha
        have hname : (tagName? (x :: q ++ '>' :: r)).isSome = true :=
          tagName?_isSome_iff.mpr ⟨x, q ++ '>' :: r, rfl, hx⟩
        have hopens : opensMarkup ['('] (x :: q ++ '>' :: r) = true := by
          rw [opensMarkup, hname, Bool.or_true]
          rfl
        exact hopens }
  have hgt : Cursor.Over ⟨a.length + 2, a.reverse ++ ['<', '('], '>' :: r⟩ ['>']
      ⟨a.length + 3, '>' :: (a.reverse ++ ['<', '(']), r⟩ := ⟨rfl, rfl, rfl⟩
  have hstop := hparen.stop.trans hn
  refine .head (steps_clear [] hn rfl) ((walks_opensTag hstop htag).trans ?_)
  have hstop' := htag.written.stop.trans hstop
  unfold framesInElement
  split
  · next hv => exact walks_void hstop' hv hgt
  · next hv => exact walks_children hstop' (by simpa using hv) hgt

/-- How the offsets of the elements of both names correspond: one name stands in place of the other
in the opening tag, and then in the closing tag. -/
def Renamed (a b c : Text) : Nat → Nat → Prop :=
  Relation.Comp (Spliced 2 a.length b.length)
    (Spliced (b.length + c.length + 5) a.length b.length)

theorem biUnique_renamed (a b c : Text) : Relator.BiUnique (Renamed a b c) := by
  constructor
  · rintro x x' y ⟨z, h, h'⟩ ⟨z', h₁, h₁'⟩
    unfold Spliced at h h' h₁ h₁'
    omega
  · rintro x y y' ⟨z, h, h'⟩ ⟨z', h₁, h₁'⟩
    unfold Spliced at h h' h₁ h₁'
    omega

/-- Inside of elements of both names the walks have come to the same. -/
theorem parallel_inElement (hg : Renames g) (hab : g a = b) (c : Text) :
    Parallel (Renamed a b c) g ['<'] c (inElement a c) (inElement b c) := by
  have hbefore : ∀ x < 2, Renamed a b c x x := fun x hx =>
    ⟨x, .inl ⟨hx, rfl⟩, .inl ⟨by omega, rfl⟩⟩
  have hparen : Frame.Corresponds (Renamed a b c) g (.bracket '(' 0) (.bracket '(' 0) :=
    ⟨rfl, (hg.bracket '(' (.inl rfl)).symm, rfl, hbefore 0 Nat.zero_lt_two⟩
  exact
    { frames := by
        have hvoid : isVoid b = isVoid a := by rw [← hab, hg.isVoid]
        unfold inElement framesInElement
        rw [hvoid]
        split
        · exact .cons hparen .nil
        · exact .cons ⟨rfl, hab.symm, rfl, hbefore 1 Nat.one_lt_two⟩ (.cons hparen .nil)
      mode := rfl
      quote := rfl
      begun := fun h => absurd rfl h
      issues := .nil
      left := ⟨_, .inr ⟨rfl, _, rfl⟩, rfl⟩
      right := ⟨_, .inr ⟨rfl, _, rfl⟩, rfl⟩
      offset := fun j hj => by
        have hpos (a : Text) : (inElement a c).cursor.pos = a.length + 3 := rfl
        rw [hpos, hpos]
        exact ⟨b.length + 3 + j, .inr ⟨by omega, by omega⟩, .inl ⟨by omega, rfl⟩⟩
      before := fun w q _ => opensMarkup_of_gt _ _ _ _ }

end ScanState

/-! ### To the closing tag -/

/-- Only a backslash in a string takes a `<` with it. -/
theorem moveAt_past {k : Text} {x : Char} (h : k.length + 1 < (s.moveAt x (k ++ ['<'])).length) :
    s.stack.mode = .string ∧ s.moveAt x (k ++ ['<']) = .pass 2 ∧ k = [] := by
  have hmany : 1 < (s.moveAt x (k ++ ['<'])).length := by omega
  have hmode : s.stack.mode = .string := by
    by_contra hm
    have hall : (x :: (k ++ ['<'])).take (s.moveAt x (k ++ ['<'])).length = x :: k ++ ['<'] :=
      List.take_of_length_le (by simp; omega)
    have hlast := getLast?_of_moveAt hmany hm '<' (by rw [hall, List.getLast?_concat]; rfl)
    exact absurd hlast (by decide)
  have hmove := moveAt_of_string hmany hmode
  rw [hmove] at h
  exact ⟨hmode, hmove, List.eq_nil_of_length_eq_zero (Nat.lt_one_iff.mp (Nat.lt_of_succ_lt_succ h))⟩

/-- A walk that goes on to the end of its text has come to the end of the common text like the other
one, or past it inside of a string. -/
theorem Parallel.exists_end {k r' : Text} {e : ScanState} (h : Parallel ρ g ['<'] k s u)
    (hg : Renames g) (hρ : Relator.BiUnique ρ) (hnames : Move.FixesNames g (k ++ ['<']))
    (hs : InWhole n s) (hu : InWhole n' u) (hr : s.cursor.after = k ++ '<' :: r)
    (hr' : u.cursor.after = k ++ '<' :: r') (hw : Walks (whole n) s e) (he : e.cursor.after = []) :
    ∃ s', Walks (whole n) s s' ∧ (s'.stack.mode = .string ∧ s'.cursor.after = r ∨
      ∃ u', Walks (whole n') u u' ∧ Parallel ρ g ['<'] [] s' u' ∧ s'.cursor.after = '<' :: r ∧
        u'.cursor.after = '<' :: r') := by
  induction hw using Relation.ReflTransGen.head_induction_on generalizing k u with
  | refl =>
    rw [he] at hr
    exact absurd hr.symm (by simp)
  | @head s s₁ hst _ ih =>
    cases k with
    | nil => exact ⟨s, .refl, .inr ⟨u, .refl, h, hr, hr'⟩⟩
    | cons x k =>
      obtain ⟨m', hst', hstu, hmove⟩ :=
        h.exists_steps hg (hnames.of_suffix (List.suffix_cons x _)) hs hu
      obtain rfl := Option.some.inj (hst.symm.trans hst')
      by_cases hlen : (s.moveAt x (k ++ ['<'])).length ≤ (x :: k).length
      · have hdrop (r : Text) : (x :: k ++ r).drop (s.moveAt x (k ++ ['<'])).length =
            (x :: k).drop (s.moveAt x (k ++ ['<'])).length ++ r :=
          List.drop_append_of_le_length hlen
        obtain ⟨s', hws, hcase⟩ := ih (h.apply hmove (.inl hlen) hg.injective hρ)
          (hnames.of_suffix (hdrop ['<'] ▸ List.drop_suffix _ _)) (hs.apply _) (hu.apply _)
          (by rw [Move.cursor_apply, Cursor.after_skip, hr, hdrop])
          (by rw [Move.cursor_apply, Cursor.after_skip, hr', hmove.length_eq, hdrop])
        exact ⟨s', .head hst hws, hcase.imp_right fun ⟨u', hwu, h'⟩ => ⟨u', .head hstu hwu, h'⟩⟩
      · obtain ⟨hmode, hpass, rfl⟩ := moveAt_past (Nat.lt_of_not_le hlen)
        rw [hpass] at hst
        refine ⟨_, .single hst, .inl ⟨hmode, ?_⟩⟩
        rw [Move.cursor_apply, Cursor.after_skip, hr]
        rfl

/-! ### At the closing tag -/

variable {t t' : Text}

/-- Where no quote follows in a balanced text, there is no string. -/
theorem mode_ne_string_of_isBalanced (h : (Scan.ofText t).isBalanced = true)
    (hs : Walks (whole t.length) (Scan.start t 0) s)
    (hq : ∀ q ∈ s.cursor.after, ¬ IsQuote .script q) : s.stack.mode ≠ .string := by
  intro hm
  obtain ⟨v, q, rest, k, -, -, -, hquote, rfl⟩ := continues_of_walks hs hm
  obtain ⟨-, e, he, -, hmode, -⟩ := clean_of_isBalanced h hs
  have hend := Walks.string he ((inWhole_start t).walks hs) hm (by
    rintro x hx hq'
    obtain rfl := (List.cons.inj hq').1
    exact hq q hx (quote_of_isQuote hquote))
  rw [hend] at hmode
  exact hmode.elim nofun nofun

/-- Where no star follows in a balanced text, there is no comment that ends with one. -/
theorem mode_ne_blockComment_of_isBalanced (h : (Scan.ofText t).isBalanced = true)
    (hs : Walks (whole t.length) (Scan.start t 0) s) (hstar : '*' ∉ s.cursor.after) :
    s.stack.mode ≠ .blockComment := by
  intro hm
  obtain ⟨-, e, he, -, hmode, -⟩ := clean_of_isBalanced h hs
  rw [Walks.blockComment he ((inWhole_start t).walks hs) hm hstar] at hmode
  exact hmode.elim nofun nofun

/-- In a balanced text no tag runs into another one. -/
theorem context_ne_attrs_of_isBalanced (h : (Scan.ofText t).isBalanced = true)
    (hs : Walks (whole t.length) (Scan.start t 0) s) (hm : s.stack.mode = .normal)
    (ha : s.cursor.after = '<' :: r) : contextOf s.stack.frames ≠ .attrs := by
  intro hk
  obtain ⟨f, fs, hf, htop⟩ := Move.exists_of_attrs hk
  have hmove : s.moveAt '<' r = .cutShort f := by
    unfold moveAt Move.next
    rw [hm, hf]
    exact (Move.outside_of_attrs htop).trans rfl
  have hst := ((inWhole_start t).walks hs).steps_of_moveAt ha hmove
  exact absurd (clean_of_isBalanced h (hs.tail hst)).1 (List.cons_ne_nil _ _)

/-- A closing tag that finds nothing wrong has the name of the innermost frame, which is a tag. -/
theorem exists_top_of_closeTag {name : Text} {stop : Nat} (h : (s.closeTag name stop).issues = []) :
    ∃ f fs, s.stack.frames = f :: fs ∧ f.kind = .tag ∧ f.token = name := by
  cases hsplit : splitAtTag? name s.stack.frames with
  | some p =>
    obtain ⟨inner, outer⟩ := p
    rw [closeTag_of_split hsplit] at h
    obtain rfl : inner = [] := by simpa using (List.append_eq_nil_iff.mp h).1
    obtain ⟨f, hframes, htoken, htag, -⟩ := splitAtTag?_spec hsplit
    exact ⟨f, outer, hframes, htag f (by simp), htoken⟩
  | none =>
    unfold closeTag at h
    rw [hsplit] at h
    dsimp only at h
    split at h
    · cases h
    · split at h <;> cases h

theorem cases_of_mem_closingTag {x : Char} (ha : IsTagName a)
    (hx : x ∈ (Closer.tag a).display ++ [')']) :
    isTagNameChar x = true ∨ x = '<' ∨ x = '/' ∨ x = '>' ∨ x = ')' := by
  simp only [Closer.display, List.mem_append, List.mem_cons, List.not_mem_nil, or_false] at hx
  obtain ((rfl | rfl | hx) | rfl) | rfl := hx
  · exact .inr (.inl rfl)
  · exact .inr (.inr (.inl rfl))
  · exact .inl (ha.isTagNameChar x hx)
  · exact .inr (.inr (.inr (.inl rfl)))
  · exact .inr (.inr (.inr (.inr rfl)))

theorem not_isQuote_of_mem_closingTag {q : Char} (ha : IsTagName a)
    (hq : q ∈ (Closer.tag a).display ++ [')']) : ¬ IsQuote .script q := by
  have hchar := cases_of_mem_closingTag ha hq
  rintro (rfl | rfl | rfl) <;> exact absurd hchar (by decide)

theorem isClosingTag_of_isTagName (ha : IsTagName a) : IsClosingTag a (Closer.tag a).display :=
  isClosingTag_display (.inr ha)

/-- A comment that no newline ends goes on to the end of its text. -/
theorem exists_outcome_of_lineComment (hs : Walks (whole t.length) (Scan.start t 0) s)
    (hm : s.stack.mode = .lineComment) (hline : '\n' ∉ s.cursor.after) :
    ∃ n, (s.advance n).closedAt? = none ∧ (s.advance n).outcome t = Scan.ofText t := by
  have hin := (inWhole_start t).walks hs
  have hw := hin.walks_lineComment (r := []) hm hline (List.append_nil _).symm
  have hend : (s.advance s.cursor.after.length).cursor.after = [] := by
    rw [after_advance, List.drop_length]
  have hrun := (inWhole_start t).run_eq_of_after (hs.trans hw) hend
  refine ⟨_, (hin.walks hw).closedAt?, ?_⟩
  rw [← hrun]
  rfl

/-- Corresponding places before the closing tags of two names, behind which a parenthesis closes. -/
structure BeforeClosers (ρ : Nat → Nat → Prop) (g : Text → Text) (a b t t' : Text)
    (s u : ScanState) : Prop extends s.Corresponds ρ g u where
  left : Walks (whole t.length) (Scan.start t 0) s
  right : Walks (whole t'.length) (Scan.start t' 0) u
  leftAfter : s.cursor.after = (Closer.tag a).display ++ [')']
  rightAfter : u.cursor.after = (Closer.tag b).display ++ [')']
  offset : ∀ j ≤ 1, ρ (s.cursor.pos + (Closer.tag a).display.length + j)
    (u.cursor.pos + (Closer.tag b).display.length + j)

namespace BeforeClosers

theorem isBalanced_of_lineComment (hsu : BeforeClosers ρ g a b t t' s u) (ha : IsTagName a)
    (hb : IsTagName b) (hm : s.stack.mode = .lineComment) :
    (Scan.ofText t').isBalanced = (Scan.ofText t).isBalanced := by
  have hline : '\n' ∉ s.cursor.after := fun hx =>
    absurd (cases_of_mem_closingTag ha (hsu.leftAfter ▸ hx)) (by decide)
  have hline' : '\n' ∉ u.cursor.after := fun hx =>
    absurd (cases_of_mem_closingTag hb (hsu.rightAfter ▸ hx)) (by decide)
  obtain ⟨n, hclosed, houtcome⟩ := exists_outcome_of_lineComment hsu.left hm hline
  obtain ⟨n', hclosed', houtcome'⟩ :=
    exists_outcome_of_lineComment hsu.right (hsu.mode.trans hm) hline'
  rw [← houtcome', ← houtcome]
  exact ((hsu.toCorresponds.advance n n').outcome hclosed hclosed' t t').isBalanced

/-- Where both closing tags close the innermost tag, the walks go on alike behind them. -/
theorem isBalanced_of_normal (hsu : BeforeClosers ρ g a b t t' s u) (hg : Renames g)
    (hρ : Relator.BiUnique ρ) (ha : IsTagName a) (hb : IsTagName b) (hab : g a = b)
    (h : (Scan.ofText t).isBalanced = true) (hm : s.stack.mode = .normal) :
    (Scan.ofText t').isBalanced = true := by
  have hin := (inWhole_start t).walks hsu.left
  have hin' := (inWhole_start t').walks hsu.right
  have hc := isClosingTag_of_isTagName ha
  have hc' := isClosingTag_of_isTagName hb
  have hattrs := context_ne_attrs_of_isBalanced h hsu.left hm hsu.leftAfter
  have hst := hin.steps_closingTag hm hattrs hc hsu.leftAfter
  obtain ⟨f, fs, hf, hk, hname⟩ :=
    exists_top_of_closeTag (clean_of_isBalanced h (hsu.left.tail hst)).1
  have hframes := hsu.frames
  rw [hf] at hframes
  obtain ⟨f', fs', hff', -, hf'⟩ := List.forall₂_cons_left_iff.mp hframes
  have hattrs' : contextOf u.stack.frames ≠ .attrs := by
    rwa [hf', contextOf_cons, hff'.context, ← contextOf_cons f fs, ← hf]
  have hst' := hin'.steps_closingTag (hsu.mode.trans hm) hattrs' hc' hsu.rightAfter
  obtain rfl : f'.token = b := by rw [hff'.token, hname, hab]
  subst hname
  rw [closeTag_of_top hf hk] at hst
  rw [closeTag_of_top hf' (hff'.kind.trans hk)] at hst'
  have hnames : Move.FixesNames g [')'] := fun name hname hi =>
    absurd (List.infix_nil.mp (infix_of_infix_concat (c := []) hname rfl hi)) hname.ne_nil
  have hbehind := hsu.toCorresponds.pop.parallel_behind_tags hc hc' hsu.leftAfter hsu.rightAfter
    hsu.offset
  have hout := hbehind.outcome hg hρ hnames (hin.walks (.single hst))
    (hin'.walks (.single hst')) t t'
  rw [Walks.outcome_run (hsu.left.tail hst), Walks.outcome_run (hsu.right.tail hst')] at hout
  rw [hout.isBalanced, h]

/-- If the one text is balanced, the other one is. -/
theorem isBalanced (hsu : BeforeClosers ρ g a b t t' s u) (hg : Renames g)
    (hρ : Relator.BiUnique ρ) (ha : IsTagName a) (hb : IsTagName b) (hab : g a = b)
    (h : (Scan.ofText t).isBalanced = true) : (Scan.ofText t').isBalanced = true := by
  cases hm : s.stack.mode with
  | normal => exact hsu.isBalanced_of_normal hg hρ ha hb hab h hm
  | lineComment => rw [hsu.isBalanced_of_lineComment ha hb hm, h]
  | string =>
    exact absurd hm (mode_ne_string_of_isBalanced h hsu.left fun q hq =>
      not_isQuote_of_mem_closingTag ha (hsu.leftAfter ▸ hq))
  | blockComment =>
    refine absurd hm (mode_ne_blockComment_of_isBalanced h hsu.left fun hstar => ?_)
    exact absurd (cases_of_mem_closingTag ha (hsu.leftAfter ▸ hstar)) (by decide)

end BeforeClosers

/-! ### Renaming the element -/

/-- An element in parentheses is as balanced under another name, if the renaming is one that a scan
takes no notice of and the content has neither name. -/
theorem isBalanced_element (h : (Scan.ofText (element a c)).isBalanced = true) (hg : Renames g)
    (ha : IsTagName a) (hb : IsTagName b) (hab : g a = b)
    (hnames : Move.FixesNames g (c ++ ['<'])) : (Scan.ofText (element b c)).isBalanced = true := by
  have hw := walks_inElement ha c
  have hw' := walks_inElement hb c
  have hin := (inWhole_start _).walks hw
  have hin' := (inWhole_start _).walks hw'
  obtain ⟨-, e, hwe, he, -⟩ := clean_of_isBalanced h hw
  obtain ⟨s, hs, ⟨hm, hafter⟩ | ⟨u, hu, hsu, hafter, hafter'⟩⟩ :=
    (parallel_inElement hg hab c).exists_end hg (biUnique_renamed a b c) hnames hin hin' rfl rfl hwe
      he
  · -- inside of a string the walk would not come out of it any more
    exact absurd hm (mode_ne_string_of_isBalanced h (hw.trans hs) fun q hq =>
      not_isQuote_of_mem_closingTag ha (List.mem_cons_of_mem '<' (hafter ▸ hq)))
  · have hpos {a : Text} {s : ScanState} (hs : InWhole (element a c).length s)
        (hafter : s.cursor.after = (Closer.tag a).display ++ [')']) :
        s.cursor.pos = a.length + c.length + 3 := by
      have hstop := hs.stop
      rw [Cursor.stop, hafter, element_eq] at hstop
      simp only [List.length_append, List.length_cons, List.length_nil] at hstop
      omega
    have hclosers : BeforeClosers (Renamed a b c) g a b (element a c) (element b c) s u :=
      { toCorresponds := hsu.toCorresponds
        left := hw.trans hs
        right := hw'.trans hu
        leftAfter := hafter
        rightAfter := hafter'
        offset := fun j _ => by
          rw [hpos (hin.walks hs) hafter, hpos (hin'.walks hu) hafter']
          simp only [Closer.display, List.length_append, List.length_cons, List.length_nil]
          exact ⟨b.length + c.length + a.length + 6 + j, .inr ⟨by omega, by omega⟩,
            .inr ⟨by omega, by omega⟩⟩ }
    exact hclosers.isBalanced hg (biUnique_renamed a b c) ha hb hab h

/-- The closing tag of a void element finds the parenthesis around it. -/
theorem not_isBalanced_of_isVoid (ha : IsTagName a) (hv : isVoid a = true) :
    ¬ (Scan.ofText (element a [])).isBalanced = true := by
  intro h
  have hw := walks_inElement ha []
  have hframes : (inElement a []).stack.frames = [.bracket '(' 0] := by
    simp [inElement, clear, framesInElement, hv]
  have hst := ((inWhole_start _).walks hw).steps_closingTag (r := [')']) rfl
    (by rw [hframes]; decide) (isClosingTag_of_isTagName ha) rfl
  obtain ⟨f, fs, hf, hk, -⟩ := exists_top_of_closeTag (clean_of_isBalanced h (hw.tail hst)).1
  rw [hframes] at hf
  obtain ⟨rfl, -⟩ := List.cons.inj hf
  cases hk

theorem isBalanced_of_not_isVoid (ha : IsTagName a) (hv : isVoid a = false) :
    (Scan.ofText (element a [])).isBalanced = true := by
  have hw := walks_inElement ha []
  have hin := (inWhole_start _).walks hw
  have hinside : inElement a [] = clear (inElement a []).cursor
      [⟨.tag, a, 1, .children⟩, .bracket '(' 0] := by
    simp [inElement, clear, framesInElement, hv]
  have hover : (inElement a []).cursor.Over (Closer.tag a).display
      ((inElement a []).cursor.skip (Closer.tag a).display.length) := Cursor.over_skip rfl
  have hafter : ((inElement a []).cursor.skip (Closer.tag a).display.length).after = [')'] := by
    rw [Cursor.after_skip]
    exact List.drop_left
  generalize (inElement a []).cursor.skip (Closer.tag a).display.length = d at hover hafter
  have hcloses : Walks (whole (element a []).length) (clear (inElement a []).cursor
      [⟨.tag, a, 1, .children⟩, .bracket '(' 0]) (clear d [.bracket '(' 0]) :=
    walks_closes hin.stop (isClosingTag_of_isTagName ha) hover
  rw [← hinside] at hcloses
  have hparen := steps_clear [.bracket '(' 0] (hover.stop.trans hin.stop) hafter
  have hmove : Move.outside (whole 0) [.bracket '(' 0] (expressionCanFollow d.before) ')'
      ([] : Text).head? [] = .closeBracket '(' ')' := rfl
  rw [hmove, Move.apply_closeBracket_clear] at hparen
  have hend : (clear (d.skip 1) []).cursor.after = [] := by
    show (d.skip 1).after = []
    rw [Cursor.after_skip, hafter]
    rfl
  have hrun := (inWhole_start _).run_eq_of_after (hw.trans (hcloses.tail hparen)) hend
  rw [Scan.ofText, Scan.ofTextFrom, Scan.ofTextWith, hrun]
  rfl

/-- An element without content is balanced if and only if its name is not void. -/
theorem isBalanced_element_nil (ha : IsTagName a) :
    (Scan.ofText (element a [])).isBalanced = !isVoid a := by
  cases hv : isVoid a with
  | true => exact Bool.eq_false_iff.mpr (not_isBalanced_of_isVoid ha hv)
  | false => exact isBalanced_of_not_isVoid ha hv

/-- Names of components are interchangeable if both are void or neither is, and only then. -/
theorem interchangeable_iff (ha : IsComponentName a) (hb : IsComponentName b) :
    Interchangeable a b ↔ isVoid a = isVoid b := by
  have hna := ha.isTagName
  have hnb := hb.isTagName
  constructor
  · intro h
    have hempty := h [] (fun hi => hna.ne_nil (List.infix_nil.mp hi))
      (fun hi => hnb.ne_nil (List.infix_nil.mp hi))
    rw [isBalanced_element_nil hna, isBalanced_element_nil hnb] at hempty
    simpa using hempty
  · intro hv c hca hcb
    have hnames := fixesNames_swap hca hcb
    have hg := renames_swap hna hnb hv
    rw [Bool.eq_iff_iff]
    exact ⟨fun h => isBalanced_element h hg hna hnb (Equiv.swap_apply_left a b) hnames,
      fun h => isBalanced_element h hg hnb hna (Equiv.swap_apply_right a b) hnames⟩

theorem interchangeable_iff_cardPanelLink :
    Interchangeable "Card".toList "Panel".toList ∧
      ¬ Interchangeable "Link".toList "Card".toList := by
  have hcard : IsComponentName "Card".toList := ⟨'C', "ard".toList, rfl, rfl, by decide⟩
  have hpanel : IsComponentName "Panel".toList := ⟨'P', "anel".toList, rfl, rfl, by decide⟩
  have hlink : IsComponentName "Link".toList := ⟨'L', "ink".toList, rfl, rfl, by decide⟩
  exact ⟨(interchangeable_iff hcard hpanel).mpr (by decide),
    mt (interchangeable_iff hlink hcard).mp (by decide)⟩

end SnippetGate
