import SnippetGate.Proofs.Balance.Accepts

/-!
# What a scan reads without complaint is script

Up to every place of a scan at which nothing was found wrong, the text is a derivation of the
grammar with some brackets and elements still open, one for each frame. A step goes on with the
innermost sequence, begins a new one inside of it, or completes it.
-/

namespace SnippetGate

open Grammar

namespace ScanState

variable {c₀ b c d e : Cursor} {f : Frame} {fs : List Frame} {k : Context} {x y q : Char}
  {name body : Text} {p : Nat}

/-- The brackets and elements of these frames are open, and the content of the innermost begins at
a place. -/
inductive Opened (c₀ : Cursor) : List Frame → Cursor → Prop
  | nil : Opened c₀ [] c₀
  | bracket {fs : List Frame} {b c d : Cursor} {x y : Char} {p : Nat} :
      Opened c₀ fs b → Reads (contextOf fs) b c → IsPair (contextOf fs) x y → c.Over [x] d →
      Opened c₀ (.bracket x p :: fs) d
  | attrs {fs : List Frame} {b c d : Cursor} {name : Text} {p : Nat} :
      Opened c₀ fs b → Reads (contextOf fs) b c → OpensTag (contextOf fs) c name d →
      Opened c₀ (⟨.tag, name, p, .attrs⟩ :: fs) d
  | children {fs : List Frame} {b c d e e' : Cursor} {name : Text} {p : Nat} :
      Opened c₀ fs b → Reads (contextOf fs) b c → OpensTag (contextOf fs) c name d →
      isVoid name = false → Reads .attrs d e → e.Over ['>'] e' →
      Opened c₀ (⟨.tag, name, p, .children⟩ :: fs) e'
  | fragment {fs : List Frame} {b c d : Cursor} {p : Nat} :
      Opened c₀ fs b → Reads (contextOf fs) b c → OpensFragment (contextOf fs) c d →
      Opened c₀ (⟨.tag, [], p, .children⟩ :: fs) d

/-- The text from `c₀` to `c` is a derivation in which these frames are open. -/
def Parsed (c₀ : Cursor) (fs : List Frame) (c : Cursor) : Prop :=
  ∃ b, Opened c₀ fs b ∧ Reads (contextOf fs) b c

/-! ### Going on with a derivation -/

theorem Parsed.plain (h : Parsed c₀ fs c) (ho : c.Over [x] d)
    (hp : IsPlain (contextOf fs) c.before x d.after) : Parsed c₀ fs d := by
  obtain ⟨b, hb, hr⟩ := h
  exact ⟨b, hb, .plain hr ho hp⟩

theorem Parsed.string (h : Parsed c₀ fs c) (hq : IsQuote (contextOf fs) q)
    (hs : IsStringBody q body) (ho : c.Over (q :: (body ++ [q])) d) : Parsed c₀ fs d := by
  obtain ⟨b, hb, hr⟩ := h
  exact ⟨b, hb, .string hr hq hs ho⟩

theorem Parsed.lineComment (h : Parsed c₀ fs c) (hk : contextOf fs = .script)
    (hs : '\n' ∉ body) (ho : c.Over ('/' :: '/' :: (body ++ ['\n'])) d) : Parsed c₀ fs d := by
  obtain ⟨b, hb, hr⟩ := h
  exact ⟨b, hb, hk ▸ .lineComment (hk ▸ hr) hs ho⟩

theorem Parsed.lastComment (h : Parsed c₀ fs c) (hk : contextOf fs = .script)
    (hs : '\n' ∉ body) (ho : c.Over ('/' :: '/' :: body) d) (hd : d.after = []) :
    Parsed c₀ fs d := by
  obtain ⟨b, hb, hr⟩ := h
  exact ⟨b, hb, hk ▸ .lastComment (hk ▸ hr) hs ho hd⟩

theorem Parsed.blockComment (h : Parsed c₀ fs c) (hk : contextOf fs = .script)
    (hs : ¬ ['*', '/'] <:+: body) (ho : c.Over ('/' :: '*' :: (body ++ ['*', '/'])) d) :
    Parsed c₀ fs d := by
  obtain ⟨b, hb, hr⟩ := h
  exact ⟨b, hb, hk ▸ .blockComment (hk ▸ hr) hs ho⟩

/-! ### Beginning a sequence inside of another -/

theorem Opened.parsed (h : Opened c₀ fs c) : Parsed c₀ fs c := ⟨c, h, .nil _ _⟩

theorem Parsed.openBracket (h : Parsed c₀ fs c) (hp : IsPair (contextOf fs) x y)
    (ho : c.Over [x] d) : Parsed c₀ (.bracket x p :: fs) d := by
  obtain ⟨b, hb, hr⟩ := h
  exact (Opened.bracket hb hr hp ho).parsed

theorem Parsed.openTag (h : Parsed c₀ fs c) (ht : OpensTag (contextOf fs) c name d) :
    Parsed c₀ (⟨.tag, name, p, .attrs⟩ :: fs) d := by
  obtain ⟨b, hb, hr⟩ := h
  exact (Opened.attrs hb hr ht).parsed

theorem Parsed.openFragment (h : Parsed c₀ fs c) (ht : OpensFragment (contextOf fs) c d) :
    Parsed c₀ (⟨.tag, [], p, .children⟩ :: fs) d := by
  obtain ⟨b, hb, hr⟩ := h
  exact (Opened.fragment hb hr ht).parsed

theorem Parsed.beginChildren (h : Parsed c₀ (⟨.tag, name, p, .attrs⟩ :: fs) c)
    (hv : isVoid name = false) (ho : c.Over ['>'] d) :
    Parsed c₀ (⟨.tag, name, p, .children⟩ :: fs) d := by
  obtain ⟨b, hb, hr⟩ := h
  cases hb with
  | attrs hb' hr' ht => exact (Opened.children hb' hr' ht hv hr ho).parsed

/-! ### Completing a sequence -/

theorem Parsed.closeBracket (h : Parsed c₀ (.bracket x p :: fs) c) (hp : IsPair .script x y)
    (ho : c.Over [y] d) : Parsed c₀ fs d := by
  obtain ⟨b, hb, hr⟩ := h
  generalize hg : Frame.bracket x p :: fs = gs at hb hr
  cases hb with
  | @bracket fs' b' c' d' x' y' p' hb' hr' hp' ho' =>
    obtain ⟨hf, rfl⟩ := List.cons.inj hg
    obtain ⟨rfl, rfl⟩ : x = x' ∧ p = p' := by simpa [Frame.bracket] using hf
    obtain rfl : y = y' := by
      cases hk : contextOf fs <;> rw [hk] at hp' <;> simp only [IsPair] at hp hp' <;> grind
    exact ⟨b', hb', .bracket hr' hp' ho' hr ho⟩
  | _ => simp [Frame.bracket] at hg

theorem Parsed.selfClosing (h : Parsed c₀ (⟨.tag, name, p, .attrs⟩ :: fs) c)
    (ho : c.Over ['/', '>'] d) : Parsed c₀ fs d := by
  obtain ⟨b, hb, hr⟩ := h
  cases hb with
  | attrs hb' hr' ht => exact ⟨_, hb', .selfClosing hr' ht hr ho⟩

theorem Parsed.void (h : Parsed c₀ (⟨.tag, name, p, .attrs⟩ :: fs) c) (hv : isVoid name = true)
    (ho : c.Over ['>'] d) : Parsed c₀ fs d := by
  obtain ⟨b, hb, hr⟩ := h
  cases hb with
  | attrs hb' hr' ht => exact ⟨_, hb', .void hr' ht hv hr ho⟩

theorem Parsed.closeTag (h : Parsed c₀ (⟨.tag, name, p, .children⟩ :: fs) c)
    (hc : IsClosingTag name body) (ho : c.Over body d) : Parsed c₀ fs d := by
  obtain ⟨b, hb, hr⟩ := h
  cases hb with
  | children hb' hr' ht hv hra ho' => exact ⟨_, hb', .element hr' ht hv hra ho' hr hc ho⟩
  | fragment hb' hr' ht => exact ⟨_, hb', .fragment hr' ht hr hc ho⟩

/-- Frames whose content is script are none, or have a bracket on top. -/
theorem Parsed.cases_script (h : Parsed c₀ fs c) (hk : contextOf fs = .script) :
    fs = [] ∨ ∃ x p gs, fs = .bracket x p :: gs := by
  obtain ⟨b, hb, -⟩ := h
  cases hb with
  | nil => exact .inl rfl
  | bracket => exact .inr ⟨_, _, _, rfl⟩
  | _ => cases hk

theorem Parsed.cases_attrs (h : Parsed c₀ (f :: fs) c) (hk : f.context = .attrs) :
    ∃ name p, f = ⟨.tag, name, p, .attrs⟩ := by
  obtain ⟨b, hb, -⟩ := h
  cases hb with
  | attrs => exact ⟨_, _, rfl⟩
  | _ => cases hk

theorem Parsed.cases_markup (h : Parsed c₀ fs c) (hk : contextOf fs = .markup) :
    ∃ name p gs, fs = ⟨.tag, name, p, .children⟩ :: gs := by
  obtain ⟨b, hb, -⟩ := h
  cases hb with
  | children => exact ⟨_, _, _, rfl⟩
  | fragment => exact ⟨_, _, _, rfl⟩
  | _ => cases hk

/-! ### What a scan has understood -/

/-- Either something was found wrong, or the text up to here is a derivation, perhaps with a string
or a comment begun after it. -/
inductive Understood (c₀ : Cursor) : ScanState → Prop
  | clear {fs : List Frame} {c : Cursor} : Parsed c₀ fs c → Understood c₀ (clear c fs)
  | string {fs : List Frame} {c d : Cursor} {q : Char} {body : Text} {start : Option Nat} :
      Parsed c₀ fs c → IsQuote (contextOf fs) q → IsStringBody q body → c.Over (q :: body) d →
      Understood c₀ (inside d fs .string [q] start)
  | cutString {fs : List Frame} {d : Cursor} {quote : Text} {start : Option Nat} :
      d.after = [] → Understood c₀ (inside d fs .string quote start)
  | lineComment {fs : List Frame} {c d : Cursor} {body : Text} {start : Option Nat} :
      Parsed c₀ fs c → contextOf fs = .script → '\n' ∉ body → c.Over ('/' :: '/' :: body) d →
      Understood c₀ (inside d fs .lineComment [] start)
  | blockComment {fs : List Frame} {c d : Cursor} {body : Text} {start : Option Nat} :
      Parsed c₀ fs c → contextOf fs = .script → ¬ ['*', '/'] <:+: body ++ d.after.take 1 →
      c.Over ('/' :: '*' :: body) d → Understood c₀ (inside d fs .blockComment [] start)
  | faulty {s : ScanState} : s.issues ≠ [] → Understood c₀ s

theorem issues_apply_ne_nil {s : ScanState} (h : s.issues ≠ []) (m : Move) :
    (m.apply s).issues ≠ [] := by
  cases m with
  | closeBracket opener x =>
    simp only [Move.apply, advance, closeBracket]
    split
    · exact List.cons_ne_nil _ _
    · split
      · exact h
      · exact List.cons_ne_nil _ _
  | closeTag name n =>
    simp only [Move.apply, advance, closeTag]
    split
    · simp [h]
    · split
      · exact List.cons_ne_nil _ _
      · split <;> exact List.cons_ne_nil _ _
  | beginChildren =>
    simp only [Move.apply, advance, beginChildren]
    split
    · exact h
    · simpa using h
  | cutShort top => exact List.cons_ne_nil _ _
  | stray top x => exact List.cons_ne_nil _ _
  | _ => exact h

section Steps

variable {rest : Text}

theorem understood_string {start : Option Nat} (h : Parsed c₀ fs c)
    (hq : IsQuote (contextOf fs) q) (hs : IsStringBody q body) (ho : c.Over (q :: body) d)
    (ha : d.after = x :: rest) :
    Understood c₀ ((Move.inString [q] x).apply (inside d fs .string [q] start)) := by
  have hx := Cursor.over_skip_one ha
  unfold Move.inString
  split
  · next hb =>
    subst hb
    cases rest with
    | nil =>
      refine .cutString (d := d.skip 2) ?_
      rw [Cursor.after_skip, ha]
      rfl
    | cons y rest =>
      have hy : d.Over ['\\', y] (d.skip 2) := Cursor.over_skip (a := ['\\', y]) ha
      exact .string h hq (hs.append (.escape .nil)) (ho.trans hy)
  · next hb =>
    split
    · next hq' =>
      obtain rfl : q = x := by simpa using hq'
      exact .clear (h.string hq hs (ho.trans hx))
    · next hq' =>
      have hne : x ≠ q := fun e => hq' (by rw [e])
      exact .string h hq (hs.append (.plain hne hb .nil)) (ho.trans hx)

theorem understood_lineComment {start : Option Nat} (h : Parsed c₀ fs c)
    (hk : contextOf fs = .script) (hs : '\n' ∉ body) (ho : c.Over ('/' :: '/' :: body) d)
    (ha : d.after = x :: rest) :
    Understood c₀ ((Move.inLineComment x).apply (inside d fs .lineComment [] start)) := by
  have hx := Cursor.over_skip_one ha
  unfold Move.inLineComment
  split
  · next hn =>
    subst hn
    exact .clear (h.lineComment hk hs (ho.trans hx))
  · next hn => exact .lineComment h hk (by simp [hs, Ne.symm hn]) (ho.trans hx)

theorem understood_blockComment {start : Option Nat} (h : Parsed c₀ fs c)
    (hk : contextOf fs = .script) (hs : ¬ ['*', '/'] <:+: body ++ d.after.take 1)
    (ho : c.Over ('/' :: '*' :: body) d) (ha : d.after = x :: rest) :
    Understood c₀ ((Move.inBlockComment x rest.head?).apply
      (inside d fs .blockComment [] start)) := by
  have hs' : ¬ ['*', '/'] <:+: body ++ [x] := by rwa [ha] at hs
  unfold Move.inBlockComment
  split
  · next hend =>
    obtain ⟨rfl, hy⟩ := hend
    obtain ⟨r, rfl⟩ := List.head?_eq_some_iff.mp hy
    have hx : d.Over ['*', '/'] (d.skip 2) := Cursor.over_skip (a := ['*', '/']) ha
    have hb : ¬ ['*', '/'] <:+: body := fun hi =>
      hs' (hi.trans (List.prefix_append body ['*']).isInfix)
    exact .clear (h.blockComment hk hb (ho.trans hx))
  · next hend =>
    have hx := Cursor.over_skip_one ha
    refine .blockComment h hk (fun hi => ?_) (ho.trans hx)
    have hr : (d.skip 1).after = rest := by rw [Cursor.after_skip, ha]; rfl
    replace hi : ['*', '/'] <:+: body ++ [x] ++ (d.skip 1).after.take 1 := hi
    rw [hr] at hi
    cases rest with
    | nil => exact hs' (by simpa using hi)
    | cons y r =>
      -- an end of the comment that was not there before can only stand last
      rcases List.infix_concat_iff.mp (show ['*', '/'] <:+: (body ++ [x]) ++ [y] from hi) with
        ⟨p, hp⟩ | hinf
      · have hrev := congrArg List.reverse hp
        simp only [List.reverse_append, List.reverse_cons, List.reverse_nil, List.nil_append,
          List.cons_append, List.cons.injEq] at hrev
        exact hend ⟨hrev.2.1.symm, congrArg some hrev.1.symm⟩
      · exact hs' hinf

/-! ### Steps from clear places -/

theorem not_beginsElement_of_slash {before : Text} :
    ¬ BeginsElement k before ('/' :: rest) := by
  have hn : tagName? ('/' :: rest) = none := rfl
  cases k <;> simp [BeginsElement, opensMarkup, hn]

theorem isPair_of_openerOf? {n : Nat} (h : (whole n).openerOf? y = some x) :
    IsPair .script x y := by
  rw [Move.openerOf?_whole] at h
  simp only [IsPair]
  grind

theorem understood_plain (h : Parsed c₀ fs c) (ha : c.after = x :: rest)
    (hp : IsPlain (contextOf fs) c.before x rest) :
    Understood c₀ ((Move.pass 1).apply (clear c fs)) := by
  have hafter : (c.skip 1).after = rest := by rw [Cursor.after_skip, ha]; rfl
  exact .clear (h.plain (Cursor.over_skip_one ha) (hafter.symm ▸ hp))

theorem understood_opening (h : Parsed c₀ fs c) (hb : BeginsElement (contextOf fs) c.before rest)
    (ha : c.after = '<' :: rest) : Understood c₀ ((Move.opening rest).apply (clear c fs)) := by
  unfold Move.opening
  split
  · next hgt =>
    obtain ⟨r, rfl⟩ := List.head?_eq_some_iff.mp hgt
    have ho : c.Over ['<', '>'] (c.skip 2) := Cursor.over_skip (a := ['<', '>']) ha
    have hr : (c.skip 2).after = r := by rw [Cursor.after_skip, ha]; rfl
    have ht : OpensFragment (contextOf fs) c (c.skip 2) := ⟨ho, by rwa [hr]⟩
    exact .clear (h.openFragment ht)
  · next hgt =>
    have hsome : (tagName? rest).isSome = true := by
      cases hk : contextOf fs <;> rw [hk] at hb <;> simp [BeginsElement, opensMarkup, hgt] at hb
      · exact hb.1
      · exact hb
    obtain ⟨name, hname⟩ := Option.isSome_iff_exists.mp hsome
    obtain ⟨hn, r, rfl, hr⟩ := tagName?_eq_some_iff.mp hname
    have hc : c.after = '<' :: name ++ r := ha
    have hafter : (c.skip ('<' :: name).length).after = r := by
      rw [Cursor.after_skip, hc, List.drop_left]
    have ht : OpensTag (contextOf fs) c name (c.skip ('<' :: name).length) :=
      ⟨Cursor.over_skip hc, hn, by rwa [hafter], by rwa [hafter]⟩
    rw [hname]
    exact .clear (h.openTag ht)

theorem understood_closeBracket (h : Parsed c₀ fs c) (hk : contextOf fs = .script)
    (ho : (whole 0).openerOf? x = some y) (ha : c.after = x :: rest) :
    Understood c₀ ((Move.closeBracket y x).apply (clear c fs)) := by
  rcases h.cases_script hk with rfl | ⟨z, p, gs, rfl⟩
  · exact .faulty (List.cons_ne_nil _ _)
  by_cases hz : z = y
  · subst hz
    rw [Move.apply_closeBracket_clear]
    exact .clear (h.closeBracket (isPair_of_openerOf? ho) (Cursor.over_skip_one ha))
  · refine .faulty ?_
    simp [Move.apply, advance, closeBracket, clear, Frame.bracket, hz, report, pop]

/-- In script every closing tag is out of place. -/
theorem understood_closeTag_script {n : Nat} (hk : contextOf fs = .script) :
    Understood c₀ ((Move.closeTag name n).apply (clear c fs)) := by
  refine .faulty ?_
  rw [Move.apply, closeTag_of_script (s := clear c fs) hk]
  exact List.cons_ne_nil _ _

/-- In markup a closing tag completes its element, or is out of place. -/
theorem understood_closeTag_markup {n : Nat} (h : Parsed c₀ fs c) (hk : contextOf fs = .markup)
    (hc : closingTagRest? rest = some (name, n)) (ha : c.after = '<' :: '/' :: rest) :
    Understood c₀ ((Move.closeTag name (n + 2)).apply (clear c fs)) := by
  obtain ⟨piece, r, hp, rfl, rfl⟩ := closingTagRest?_eq_some_iff.mp hc
  obtain ⟨top, p, gs, rfl⟩ := h.cases_markup hk
  by_cases ht : top = name
  · subst ht
    rw [Move.apply_closeTag_clear]
    exact .clear (h.closeTag ⟨piece, hp, rfl⟩ (Cursor.over_skip (a := '<' :: '/' :: piece) ha))
  · refine .faulty ?_
    cases hs : splitAtTag? name gs <;>
      simp [Move.apply, advance, closeTag, clear, splitAtTag?, ht, hs, report, pop]

theorem not_beginsWithClosingTag (h : rest.head? ≠ some '/') :
    ¬ BeginsWithClosingTag ('<' :: rest) := by
  rintro ⟨name, piece, r, ⟨q, -, rfl⟩, he⟩
  obtain rfl : rest = '/' :: (q ++ r) := by simpa using he
  exact h rfl

/-- What may be a closing tag, read in script. -/
theorem understood_closing_script (h : Parsed c₀ fs c) (hk : contextOf fs = .script)
    (ha : c.after = '<' :: '/' :: rest) :
    Understood c₀ ((Move.closing rest).apply (clear c fs)) := by
  unfold Move.closing
  cases hq : closingTagRest? rest with
  | some q => exact understood_closeTag_script hk
  | none =>
    refine understood_plain h ha (hk ▸ ⟨by decide, nofun, fun _ =>
      ⟨not_beginsElement_of_slash, fun hb => ?_⟩⟩)
    have hsome := closingTagRest?_isSome_iff.mpr hb
    simp [hq] at hsome

/-- What may be a closing tag, read in markup. -/
theorem understood_closing_markup (h : Parsed c₀ fs c) (hk : contextOf fs = .markup)
    (ha : c.after = '<' :: '/' :: rest) :
    Understood c₀ ((Move.closing rest).apply (clear c fs)) := by
  unfold Move.closing
  cases hq : closingTagRest? rest with
  | some q => exact understood_closeTag_markup h hk hq ha
  | none =>
    refine understood_plain h ha (hk ▸ ⟨by decide, fun _ =>
      ⟨not_beginsElement_of_slash, fun hb => ?_⟩⟩)
    have hsome := closingTagRest?_isSome_iff.mpr hb
    simp [hq] at hsome

/-- A character that no rule of a step in script takes is plain. -/
theorem not_mem_signs_script (hq : ¬ (x = '\x22' ∨ x = '\x27' ∨ x = '\x60'))
    (ho : ¬ (whole 0).isOpener x = true) (hc : (whole 0).openerOf? x = none) :
    x ∉ "\x22\x27\x60()[]\x7b\x7d".toList := by
  rw [Move.openerOf?_whole] at hc
  rw [Move.isOpener_whole] at ho
  simp only [show "\x22\x27\x60()[]\x7b\x7d".toList =
    ['\x22', '\x27', '\x60', '(', ')', '[', ']', '{', '}'] from rfl, List.mem_cons,
    List.not_mem_nil, or_false]
  grind

theorem understood_script (h : Parsed c₀ fs c) (hk : contextOf fs = .script)
    (ha : c.after = x :: rest) :
    Understood c₀ ((Move.inScript (whole 0) (expressionCanFollow c.before) x rest.head?
      rest).apply (clear c fs)) := by
  have hx := Cursor.over_skip_one ha
  unfold Move.inScript
  split
  · next hq => exact .string h (hk ▸ hq) .nil hx
  next hquote =>
  split
  · next hs =>
    obtain ⟨rfl, hy⟩ := hs
    obtain ⟨r, rfl⟩ := List.head?_eq_some_iff.mp hy
    exact .lineComment h hk List.not_mem_nil (Cursor.over_skip (a := ['/', '/']) ha)
  next hline =>
  split
  · next hs =>
    obtain ⟨rfl, hy⟩ := hs
    obtain ⟨r, rfl⟩ := List.head?_eq_some_iff.mp hy
    refine .blockComment h hk (fun hi => ?_) (Cursor.over_skip (a := ['/', '*']) ha)
    have hlen := hi.length_le
    simp only [List.nil_append, List.length_take, List.length_cons, List.length_nil] at hlen
    omega
  next hblock =>
  split
  · next ho =>
    obtain ⟨y, hp⟩ : ∃ y, IsPair .script x y := by
      rcases (Move.isOpener_whole x).mp ho with rfl | rfl | rfl
      · exact ⟨')', .inl ⟨rfl, rfl⟩⟩
      · exact ⟨']', .inr (.inl ⟨rfl, rfl⟩)⟩
      · exact ⟨'}', .inr (.inr ⟨rfl, rfl⟩)⟩
    exact .clear (h.openBracket (hk ▸ hp) hx)
  next hopen =>
  cases hc : (whole 0).openerOf? x with
  | some opener => exact understood_closeBracket h hk hc ha
  | none =>
    have hplain (hlt : x = '<' → ¬ BeginsElement .script c.before rest ∧
        ¬ BeginsWithClosingTag (x :: rest)) :
        Understood c₀ ((Move.pass 1).apply (clear c fs)) :=
      understood_plain h ha (hk ▸ ⟨not_mem_signs_script hquote hopen hc,
        fun hs => ⟨fun hy => hline ⟨hs, hy⟩, fun hy => hblock ⟨hs, hy⟩⟩, hlt⟩)
    dsimp only
    split
    · next ht =>
      obtain rfl := ht.2
      split
      · next hs =>
        obtain ⟨r, rfl⟩ := List.head?_eq_some_iff.mp hs
        exact understood_closing_script h hk ha
      next hs =>
      split
      · next hb =>
        refine understood_opening h ?_ ha
        rw [hk]
        simpa [BeginsElement, opensMarkup] using hb
      · next hb =>
        refine hplain fun _ => ⟨?_, not_beginsWithClosingTag hs⟩
        simpa [BeginsElement, opensMarkup] using hb
    · next ht => exact hplain fun hl => absurd ⟨rfl, hl⟩ ht

theorem understood_attrs (h : Parsed c₀ (f :: fs) c) (hk : f.context = .attrs)
    (ha : c.after = x :: rest) :
    Understood c₀ ((Move.inAttrs (whole 0) f x rest.head?).apply (clear c (f :: fs))) := by
  obtain ⟨name, p, rfl⟩ := h.cases_attrs hk
  have hx := Cursor.over_skip_one ha
  unfold Move.inAttrs
  split
  · next hq => exact .string h hq .nil hx
  next hquote =>
  split
  · next hb => exact .clear (h.openBracket (y := '}') ⟨hb, rfl⟩ hx)
  next hbrace =>
  split
  · next hs =>
    obtain ⟨rfl, hy⟩ := hs
    obtain ⟨r, rfl⟩ := List.head?_eq_some_iff.mp hy
    exact .clear (h.selfClosing (Cursor.over_skip (a := ['/', '>']) ha))
  next hslash =>
  split
  · next hgt =>
    subst hgt
    split
    · next hv => exact .clear (h.void hv hx)
    · next hv => exact .clear (h.beginChildren (by simpa using hv) hx)
  next hgt =>
  split
  · exact .faulty (List.cons_ne_nil _ _)
  next hlt =>
  split
  · exact .faulty (List.cons_ne_nil _ _)
  next hc =>
  refine understood_plain h ha ⟨?_, fun hs hy => hslash ⟨hs, hy⟩⟩
  rw [Move.openerOf?_whole] at hc
  simp only [show "\x22\x27\x7b\x7d)]<>".toList =
    ['\x22', '\x27', '{', '}', ')', ']', '<', '>'] from rfl, List.mem_cons, List.not_mem_nil,
    or_false]
  grind

theorem understood_markup (h : Parsed c₀ fs c) (hk : contextOf fs = .markup)
    (ha : c.after = x :: rest) :
    Understood c₀ ((Move.inMarkup x rest.head? rest).apply (clear c fs)) := by
  have hx := Cursor.over_skip_one ha
  unfold Move.inMarkup
  split
  · next hb => exact .clear (h.openBracket (y := '}') (hk ▸ ⟨hb, rfl⟩) hx)
  next hbrace =>
  split
  · next hl =>
    subst hl
    split
    · next hs =>
      obtain ⟨r, rfl⟩ := List.head?_eq_some_iff.mp hs
      exact understood_closing_markup h hk ha
    next hs =>
    split
    · next hb => exact understood_opening h (hk ▸ hb) ha
    · next hb =>
      exact understood_plain h ha (hk ▸ ⟨hbrace, fun _ => ⟨hb, not_beginsWithClosingTag hs⟩⟩)
  · next hl => exact understood_plain h ha (hk ▸ ⟨hbrace, fun h => absurd h hl⟩)

theorem understood_clear (h : Parsed c₀ fs c) (ha : c.after = x :: rest) :
    Understood c₀ (((clear c fs).moveAt x rest).apply (clear c fs)) := by
  have hm : (clear c fs).moveAt x rest =
      Move.outside (whole 0) fs (expressionCanFollow c.before) x rest.head? rest := rfl
  rw [hm]
  cases hk : contextOf fs with
  | script =>
    rw [Move.outside_of_script hk]
    exact understood_script h hk ha
  | attrs =>
    obtain ⟨f, gs, rfl, hf⟩ := Move.exists_of_attrs hk
    rw [Move.outside_of_attrs hf]
    exact understood_attrs h hf ha
  | markup =>
    rw [Move.outside_of_markup hk]
    exact understood_markup h hk ha

/-- Every step keeps a scan understood. -/
theorem Understood.step {s : ScanState} (h : Understood c₀ s) (ha : s.cursor.after = x :: rest) :
    Understood c₀ ((s.moveAt x rest).apply s) := by
  cases h with
  | clear h => exact understood_clear h ha
  | string h hq hs ho => exact understood_string h hq hs ho ha
  | cutString hd => cases hd.symm.trans ha
  | lineComment h hk hs ho => exact understood_lineComment h hk hs ho ha
  | blockComment h hk hs ho => exact understood_blockComment h hk hs ho ha
  | faulty h => exact .faulty (issues_apply_ne_nil h _)

end Steps

theorem isScript_of_parsed {t : Text} {fs : List Frame} {c : Cursor}
    (h : Parsed (.ofText t) fs c) (hf : fs = []) (hc : c.after = []) : IsScript t := by
  subst hf
  obtain ⟨b, hb, hr⟩ := h
  cases hb with
  | nil => exact ⟨c, hr, hc⟩

/-- A balanced text is script. -/
theorem isScript_of_isBalanced {t : Text} (h : (Scan.ofText t).isBalanced = true) :
    IsScript t := by
  obtain ⟨hu, hafter, hin⟩ := run_whole (P := Understood (.ofText t)) (inWhole_start t)
    (.clear Opened.nil.parsed) fun _ ha hs => hs.step ha
  rw [Scan.ofText, Scan.ofTextFrom, Scan.ofTextWith] at h
  generalize run _ (Scan.start t 0) = s at h hu hafter hin
  obtain ⟨hissues, hmode, hnil⟩ := of_isBalanced_outcome hin.closedAt? h
  cases hu with
  | clear hp => exact isScript_of_parsed hp hnil hafter
  | string => rcases hmode with hm | hm <;> cases hm
  | cutString => rcases hmode with hm | hm <;> cases hm
  | lineComment hp hk hs ho => exact isScript_of_parsed (hp.lastComment hk hs ho hafter) hnil hafter
  | blockComment => rcases hmode with hm | hm <;> cases hm
  | faulty hne => exact absurd hissues hne

end ScanState

/-- A text is balanced if and only if it is script. -/
theorem isBalanced_iff_isScript (t : Text) :
    (Scan.ofText t).isBalanced = true ↔ IsScript t :=
  ⟨ScanState.isScript_of_isBalanced, ScanState.isBalanced_of_isScript⟩

end SnippetGate
