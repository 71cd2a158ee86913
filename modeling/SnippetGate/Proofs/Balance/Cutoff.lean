import SnippetGate.Proofs.Balance.Closing
import SnippetGate.Proofs.Balance.Fate
import SnippetGate.Proofs.Balance.Inside

/-!
# A block that was cut off ends with its closers

A block is left open if the walk from its brace comes to the end of the text with the brace open.
The closers of all frames then close one frame after the other, the one of the brace last. So the
block of the longer text ends just behind them.
-/

namespace SnippetGate

open Grammar

namespace Move

variable {pos : Nat} {before after : List Frame} {f : Frame} {m : Move}

/-- As long as anything is open, the outermost frame is the same, if it is a bracket. -/
theorem getLast?_of_changes (h : m.Changes pos before after) (hf : before.getLast? = some f)
    (hk : f.kind = .bracket) (hne : after ≠ []) : after.getLast? = some f := by
  have hsuffix (gone : List Frame) (he : before = gone ++ after) : after.getLast? = some f := by
    rwa [he, List.getLast?_append_of_ne_nil gone hne] at hf
  have hcons {g : Frame} (he : after = g :: before) : after.getLast? = some f := by
    rw [he, List.getLast?_cons, hf]
    rfl
  cases m with
  | pass n => exact h ▸ hf
  | enter mode quote n => exact h ▸ hf
  | leave n => exact h ▸ hf
  | openBracket x => exact hcons h
  | openTag name phase n => exact hcons h
  | closeBracket opener x => exact hsuffix _ h.choose_spec.1
  | closeTag name n => exact hsuffix _ h.choose_spec.1
  | endTag n =>
    obtain ⟨top, he, -⟩ := h
    exact hsuffix [top] he
  | beginChildren =>
    obtain ⟨top, fs, rfl, ho, rfl⟩ := h
    cases fs with
    | nil =>
      obtain rfl : top = f := Option.some.inj hf
      simp [Frame.isOpening, hk] at ho
    | cons g fs => simpa [List.getLast?_cons_cons] using hf
  | cutShort top => exact hsuffix [top] h.1
  | stray top x => exact h ▸ hf

end Move

namespace ScanState

variable {c₀ c d : Cursor} {n m i : Nat} {t head r e v : Text} {s s' u : ScanState} {f : Frame}
  {fs : List Frame} {a : Text}

theorem WalksOpen.getLast? {o : Nat} (hw : WalksOpen o s u)
    (hs : Walks (whole o) (Scan.start t i) s) (hf : s.stack.frames.getLast? = some f)
    (hk : f.kind = .bracket) (hne : u.stack.frames ≠ []) :
    u.stack.frames.getLast? = some f := by
  induction hw with
  | refl => exact hf
  | @tail v u hw hst ih =>
    have horderly := Walks.orderly (hs.trans (WalksOpen.walks hw))
    obtain ⟨⟨x, rest, -, -, hchange⟩, -⟩ := horderly.step hst.2
    exact Move.getLast?_of_changes hchange (ih hst.1) hk hne

/-! ### Behind the brace -/

/-- The place behind the brace of a block that begins behind `head`, where nothing but the brace is
open. -/
def behindBrace (head r : Text) : ScanState :=
  clear ⟨head.length + 1, '{' :: head.reverse, r⟩ [.bracket '{' head.length]

theorem inWhole_behindBrace (head r : Text) :
    InWhole (head ++ '{' :: r).length (behindBrace head r) := by
  refine ⟨?_, rfl⟩
  simp only [behindBrace, clear, Cursor.stop, List.length_append, List.length_cons]
  omega

theorem drop_brace (head r : Text) : (head ++ '{' :: r).drop head.length = '{' :: r :=
  List.drop_left

/-- The scan from the start of a text that is script up to a brace comes to the place behind it. -/
theorem walks_behindBrace (hread : ∀ c d : Cursor, c.Over head d → Reads .script c d) (r : Text) :
    Walks (whole (head ++ '{' :: r).length) (Scan.start (head ++ '{' :: r) 0)
      (behindBrace head r) := by
  have ho : (Cursor.ofText (head ++ '{' :: r)).Over head ⟨head.length, head.reverse, '{' :: r⟩ :=
    ⟨rfl, by simp [Cursor.ofText], by simp [Cursor.ofText]⟩
  have hstop := ho.stop.trans (Cursor.stop_ofText _)
  have hbegin := (settles_of_reads (hread _ _ ho) [] rfl (Cursor.stop_ofText _)).walks
    (List.cons_ne_nil '{' r)
  exact hbegin.tail (steps_clear [] hstop rfl)

/-- The scan of the block comes to the same place, and has not read what stands before the brace. -/
theorem beside_behindBrace (head r : Text) :
    Beside (intoBlock (head ++ '{' :: r) head.length) (behindBrace head r) := by
  have hcursor : (intoBlock (head ++ '{' :: r) head.length).cursor =
      ⟨head.length + 1, ['{'], r⟩ := by
    rw [intoBlock, Move.cursor_apply]
    exact Cursor.skip_one_of_after (drop_brace head r)
  exact ⟨⟨by rw [hcursor]; rfl, rfl, rfl, rfl⟩, by rw [hcursor]; rfl, [], [], head.reverse,
    by rw [hcursor]; rfl, rfl⟩

theorem Beside.symm (h : Beside s u) : Beside u s := by
  obtain ⟨w, g, k, hs, hu⟩ := h.before
  exact ⟨⟨h.pos.symm, h.stack.symm, h.issues.symm, h.closedAt?.symm⟩, h.after.symm, w, k, g, hu, hs⟩

theorem Beside.walksOpen (h : Beside s u) (hs : InWhole n s) (hu : InWhole n u)
    (hw : WalksOpen n s s') : ∃ u', WalksOpen n u u' ∧ Beside s' u' := by
  induction hw with
  | refl => exact ⟨u, .refl, h⟩
  | @tail v s' hw hst ih =>
    obtain ⟨u', hwu, hu'⟩ := ih
    obtain ⟨u'', hst', hu''⟩ :=
      hu'.steps (hs.walks (WalksOpen.walks hw)) (hu.walks hwu.walks) hst.2
    exact ⟨u'', hwu.tail ⟨hu'.stack ▸ hst.1, hst'⟩, hu''⟩

/-- The block ends where a walk from behind the brace first has closed all. -/
theorem blockEnd?_of_behindBrace (hw : WalksOpen (head ++ '{' :: r).length (behindBrace head r) s)
    (hs : s.stack.frames = []) :
    (head ++ '{' :: r).blockEnd? head.length = some s.cursor.pos := by
  have hin := Text.inWhole_intoBlock (drop_brace head r)
  have hbeside := (beside_behindBrace head r).symm
  obtain ⟨u, hwu, hu⟩ := hbeside.walksOpen (inWhole_behindBrace head r) hin hw
  have hframes : u.stack.frames = [] := hu.stack ▸ hs
  rw [← Text.closedAt?_blockScan, Text.blockScan_of_walksOpen (drop_brace head r) hwu hframes,
    hu.pos]

/-! ### A text that goes on -/

/-- A walk under open frames is one through every longer text. -/
theorem WalksOpen.extend (hw : WalksOpen n s s') (hs : InWhole n s) (hu : InWhole m u)
    (h : Along a [] v s u) (hend : EndsAlone a) :
    ∃ u' a', WalksOpen m u u' ∧ Along a' [] v s' u' ∧ EndsAlone a' := by
  induction hw with
  | refl => exact ⟨u, a, .refl, h, hend⟩
  | @tail w s' hw hst ih =>
    obtain ⟨u', a', hwu, hu', hend'⟩ := ih
    have hin := hs.walks (WalksOpen.walks hw)
    have hne : a' ≠ [] := by
      rintro rfl
      obtain ⟨x, rest, ha, -⟩ := hin.steps hst.2
      rw [hu'.left] at ha
      cases ha
    obtain ⟨u'', a'', hst', hu'', hend'', -⟩ :=
      hu'.exists_steps hend' hne hin (hu.walks hwu.walks) hst.2
    exact ⟨u'', a'', hwu.tail ⟨hu'.stack ▸ hst.1, hst'⟩, hu'', hend''⟩

theorem along_behindBrace (head r v : Text) :
    Along r [] v (behindBrace head r) (behindBrace head (r ++ v)) where
  pos := rfl
  stack := rfl
  issues := rfl
  closedAt? := rfl
  before := rfl
  left := (List.append_nil r).symm
  right := rfl

/-- If a block is left open, then so is each part of it that ends with a tag. -/
theorem exists_walksOpen_of_blockEnd?_eq_none (hend : EndsAlone r)
    (h : (head ++ '{' :: (r ++ v)).blockEnd? head.length = none) :
    ∃ s, WalksOpen (head ++ '{' :: r).length (behindBrace head r) s ∧ s.cursor.after = [] := by
  have hin := inWhole_behindBrace head r
  obtain ⟨s, hw, -, hs⟩ := exists_walksOpen_run hin
  refine ⟨s, hw, hs.resolve_left fun hframes => ?_⟩
  obtain ⟨u, a, hwu, hu, -⟩ := hw.extend hin (inWhole_behindBrace head (r ++ v))
    (along_behindBrace head r v) hend
  have := blockEnd?_of_behindBrace hwu (hu.stack ▸ hframes)
  rw [h] at this
  cases this

/-! ### Through the closers -/

/-- Characters that mean nothing are gone over. -/
theorem walksOpen_inert (fs : List Frame) (hne : fs ≠ []) (hn : c.stop = n)
    (ha : ∀ x ∈ a, isInert x = true) (ho : c.Over a d) :
    WalksOpen n (clear c fs) (clear d fs) := by
  induction a generalizing c with
  | nil =>
    obtain rfl : c = d := ho.skip
    exact .refl
  | cons x a ih =>
    obtain ⟨hx, ha⟩ := List.forall_mem_cons.mp ha
    obtain ⟨c', h₁, h₂⟩ := Cursor.Over.split (a := [x]) ho
    have hst := steps_plain hn h₁ (isPlain_of_isInert hx (contextOf fs) c.before c'.after)
    exact .head ⟨hne, hst⟩ (ih (h₁.stop.trans hn) ha h₂)

/-- The closer of a frame is gone over in one step, but for a semicolon behind it. -/
theorem Parsed.walksOpen_closer (h : Parsed c₀ (f :: fs) c) (hf : f.isOpening = false)
    (hc : f.Closes a) (hbrace : fs = [] → f.token = ['{']) (hn : c.stop = n) (ho : c.Over a d) :
    WalksOpen n (clear c (f :: fs)) (clear d fs) := by
  have hbracket {x y : Char} {p : Nat} {b : Cursor} (hp : IsPair .script x y) (hb : c.Over [y] b) :
      WalksOpen n (clear c (.bracket x p :: fs)) (clear b fs) := by
    have hst := steps_clear (.bracket x p :: fs) hn hb.after_cons
    rw [Move.outside_of_script rfl, Move.inScript_of_pair hp, Move.apply_closeBracket_clear] at hst
    rw [← hb.skip]
    exact .single ⟨List.cons_ne_nil _ _, hst⟩
  cases hc with
  | tag name p phase =>
    rcases h.cases_top with ⟨x, y, q, he, -⟩ | htag | ⟨name', q, he, hname⟩
    · cases he
    · rw [htag] at hf
      cases hf
    · obtain ⟨rfl, rfl, rfl⟩ : name = name' ∧ p = q ∧ phase = .children := by simpa using he
      obtain ⟨rest, hr, hrest⟩ := isClosingTag_display hname
      rw [hrest] at ho
      have hst := steps_clear (⟨.tag, name, p, .children⟩ :: fs) hn ho.after_cons
      rw [Move.outside_of_markup rfl, List.cons_append, Move.inMarkup_of_closing hr,
        Move.apply_closeTag_clear] at hst
      rw [← ho.skip]
      exact .single ⟨List.cons_ne_nil _ _, hst⟩
  | bracket p hp => exact hbracket hp ho
  | statement p =>
    obtain ⟨b, h₁, h₂⟩ := Cursor.Over.split (a := [')']) ho
    have hne : fs ≠ [] := fun he => absurd (hbrace he) (by decide : ['('] ≠ ['{'])
    exact (hbracket (.inl ⟨rfl, rfl⟩) h₁).trans
      (walksOpen_inert fs hne (h₁.stop.trans hn) (by decide) h₂)

/-- The indent and the closer of a frame are gone over, behind the newline. -/
theorem Parsed.walksOpen_line {indent closer : Text} (h : Parsed c₀ (f :: fs) c)
    (hf : f.isOpening = false) (hi : ∀ x ∈ indent, Text.isIndent x = true) (hc : f.Closes closer)
    (hbrace : fs = [] → f.token = ['{']) (hn : c.stop = n) (ho : c.Over (indent ++ closer) d) :
    WalksOpen n (clear c (f :: fs)) (clear d fs) := by
  have hinert : ∀ x ∈ indent, isInert x = true := fun x hx =>
    isInert_of_isBlank (isBlank_of_isIndent (hi x hx))
  obtain ⟨b, h₁, h₂⟩ := ho.split
  exact (walksOpen_inert (f :: fs) (List.cons_ne_nil f fs) hn hinert h₁).trans
    ((h.inert hinert h₁).walksOpen_closer hf hc hbrace (h₁.stop.trans hn) h₂)

/-- The outermost of these frames is a brace. -/
def Braced (fs : List Frame) : Prop := ∀ f ∈ fs.getLast?, f.token = ['{']

theorem Braced.token (h : Braced (f :: fs)) (hfs : fs = []) : f.token = ['{'] :=
  h f (by rw [hfs]; rfl)

theorem Braced.tail (h : Braced (f :: fs)) : Braced fs := by
  cases fs with
  | nil => exact nofun
  | cons g fs => exact fun k hk => h k (by rwa [List.getLast?_cons_cons])

/-- The closers of all frames are gone over, and something is open until the last one. -/
theorem Parsed.walksOpen_closings (h : Parsed c₀ fs c) (hf : ∀ f ∈ fs, f.isOpening = false)
    (hb : Braced fs) (hc : Closings fs e) (hn : c.stop = n) (ho : c.Over e d) :
    WalksOpen n (clear c fs) (clear d []) := by
  induction hc generalizing c with
  | nil =>
    obtain rfl : c = d := ho.skip
    exact .refl
  | @cons f fs indent closer e hi hcl _ ih =>
    obtain ⟨hf, hfs⟩ := List.forall_mem_cons.mp hf
    obtain ⟨c₁, h₁, ho⟩ := Cursor.Over.split (a := ['\n']) ho
    obtain ⟨c₂, h₂, ho⟩ := ho.split
    have hnewline := walksOpen_inert (f :: fs) (List.cons_ne_nil f fs) hn (by decide) h₁
    have hbegun := h.inert (by decide) h₁
    have hline := hbegun.walksOpen_line hf hi hcl hb.token (h₁.stop.trans hn) h₂
    exact (hnewline.trans hline).trans
      (ih (hbegun.closeLine hf hi hcl h₂) hfs hb.tail (h₂.stop.trans (h₁.stop.trans hn)) ho)

/-- The same from where a scan has found nothing but open frames, be it in a comment. -/
theorem Understood.walksOpen_closings (h : Understood c₀ s) (hissues : s.issues = [])
    (hmode : s.stack.mode = .normal ∨ s.stack.mode = .lineComment)
    (hf : ∀ f ∈ s.stack.frames, f.isOpening = false) (hb : Braced s.stack.frames)
    (hne : s.stack.frames ≠ []) (hc : Closings s.stack.frames e) (hn : s.cursor.stop = n)
    (ho : s.cursor.Over e d) : WalksOpen n s (ScanState.clear d []) := by
  cases h with
  | clear hp => exact hp.walksOpen_closings hf hb hc hn ho
  | @lineComment fs c b body start hp hk hbody hover =>
    cases hc with
    | nil => exact absurd rfl hne
    | @cons f fs indent closer e hi hcl hc =>
      obtain ⟨hf, hfs⟩ := List.forall_mem_cons.mp hf
      obtain ⟨c₁, h₁, ho⟩ := Cursor.Over.split (a := ['\n']) ho
      obtain ⟨c₂, h₂, ho⟩ := ho.split
      have hnewline : WalksOpen n (inside b (f :: fs) .lineComment [] start)
          (ScanState.clear c₁ (f :: fs)) :=
        .single ⟨List.cons_ne_nil f fs, steps_leave (a := []) hn nofun h₁ rfl⟩
      have hbegun := hp.lineComment hk hbody (hover.trans h₁)
      have hstop := h₁.stop.trans hn
      have hline := hbegun.walksOpen_line hf hi hcl hb.token hstop h₂
      exact (hnewline.trans hline).trans ((hbegun.closeLine hf hi hcl h₂).walksOpen_closings hfs
        hb.tail hc (h₂.stop.trans hstop) ho)
  | faulty hne => exact absurd hissues hne
  | _ => rcases hmode with hm | hm <;> cases hm

end ScanState

open ScanState in
/-- A block that was cut off behind a tag ends with the closers of what was open there. -/
theorem Text.blockEnd?_of_closings {head r rest e v : Text}
    (hread : ∀ c d : Cursor, c.Over head d → Reads .script c d)
    (hopen : (head ++ '{' :: (r ++ rest)).blockEnd? head.length = none) (hend : EndsAlone r)
    (honly : (Scan.ofText (head ++ '{' :: r)).isOnlyUnclosed = true)
    (htags : ∀ f ∈ (Scan.ofText (head ++ '{' :: r)).unclosed, f.isOpening = false)
    (hc : Closings (Scan.ofText (head ++ '{' :: r)).unclosed.reverse e) :
    (head ++ '{' :: (r ++ (e ++ v))).blockEnd? head.length =
      some (head ++ '{' :: (r ++ e)).length := by
  have hin := inWhole_behindBrace head r
  have hbrace := walks_behindBrace hread r
  -- the scan of the shorter text goes through its block to the end
  obtain ⟨s, hw, hafter⟩ := exists_walksOpen_of_blockEnd?_eq_none hend hopen
  obtain ⟨s', hw', hs⟩ := endsOpen_of_isOnlyUnclosed honly
  obtain rfl : s = s' := by
    rcases Walks.total (hbrace.trans hw.walks) hw' with h | h
    · exact (hin.walks hw.walks).eq_of_walks hafter h
    · exact (((inWhole_start _).walks hw').eq_of_walks hs.after h).symm
  have hlast : s.stack.frames.getLast? = some (.bracket '{' head.length) :=
    hw.getLast? hbrace rfl rfl hs.ne_nil
  -- and so does the scan of the longer text
  obtain ⟨u, a, hwu, hu, -⟩ := hw.extend hin (inWhole_behindBrace head (r ++ (e ++ v)))
    (along_behindBrace head r (e ++ v)) hend
  obtain rfl : a = [] := by simpa [hafter] using hu.left.symm
  have hunderstood : Understood (.ofText (head ++ '{' :: (r ++ (e ++ v)))) u :=
    Understood.walks (.clear Opened.nil.parsed) (inWhole_start _)
      ((walks_behindBrace hread (r ++ (e ++ v))).trans hwu.walks)
  have hframes : (Scan.ofText (head ++ '{' :: r)).unclosed.reverse = u.stack.frames :=
    hu.stack ▸ hs.frames
  have hover : u.cursor.Over e (u.cursor.skip e.length) := Cursor.over_skip hu.right
  have hbraced : Braced u.stack.frames := by
    intro f hf
    rw [← hu.stack, hlast] at hf
    obtain rfl := Option.some.inj hf
    rfl
  have hstop := ((inWhole_behindBrace head (r ++ (e ++ v))).walks hwu.walks).stop
  have hclosed := hunderstood.walksOpen_closings (hu.issues ▸ hs.issues) (hu.stack ▸ hs.mode)
    (fun f hf => htags f (List.mem_reverse.mp (hframes ▸ hf))) hbraced (hu.stack ▸ hs.ne_nil)
    (hframes ▸ hc) hstop hover
  rw [blockEnd?_of_behindBrace (hwu.trans hclosed) rfl]
  have hpos : s.cursor.pos = (head ++ '{' :: r).length := by
    have := (hin.walks hw.walks).stop
    rwa [Cursor.stop, hafter] at this
  have hend : (u.cursor.skip e.length).pos = u.cursor.pos + e.length := hover.pos
  simp only [clear, hend, ← hu.pos, hpos, List.length_append, List.length_cons, Option.some.injEq]
  omega

end SnippetGate
