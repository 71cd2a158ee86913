import SnippetGate.Proofs.Balance.Derives
import SnippetGate.Proofs.Balance.Seam
import SnippetGate.Contract.Vocabulary

/-!
# Closing what is open

A text that ends with a tag, and in which nothing is wrong but that some frames are open, becomes
script when the frames are closed one after the other. The scan of the longer text comes to the
end of the shorter one with the same frames open, and what it has read by then is a derivation of
the grammar, which every closer brings one frame nearer to its end.
-/

namespace SnippetGate

open Grammar

/-! ### Closers -/

/-- A text that closes a frame. Behind a closing parenthesis a semicolon may stand. -/
inductive Frame.Closes : Frame → Text → Prop
  | tag (name : Text) (pos : Nat) (phase : Phase) :
      Closes ⟨.tag, name, pos, phase⟩ (Closer.tag name).display
  | bracket {x y : Char} (pos : Nat) : IsPair .script x y → Closes (.bracket x pos) [y]
  | statement (pos : Nat) : Closes (.bracket '(' pos) ");".toList

/-- The closers of some frames, innermost first, each on an indented line of its own. -/
inductive Closings : List Frame → Text → Prop
  | nil : Closings [] []
  | cons {f : Frame} {fs : List Frame} {indent closer e : Text} :
      (∀ x ∈ indent, Text.isIndent x = true) → f.Closes closer → Closings fs e →
      Closings (f :: fs) ('\n' :: (indent ++ closer ++ e))

namespace ScanState

variable {c₀ c d : Cursor} {k : Context} {f : Frame} {fs : List Frame} {a e : Text} {x : Char}

/-! ### Characters without meaning -/

/-- Whether a character means nothing to the grammar wherever it stands. -/
def isInert (x : Char) : Bool := !"\x22\x27\x60()[]\x7b\x7d<>/".toList.contains x

theorem isPlain_of_isInert (h : isInert x = true) (k : Context) (before after : Text) :
    IsPlain k before x after := by
  simp only [isInert, show "\x22\x27\x60()[]\x7b\x7d<>/".toList =
    ['\x22', '\x27', '\x60', '(', ')', '[', ']', '{', '}', '<', '>', '/'] from rfl,
    List.contains_eq_mem, List.mem_cons, List.not_mem_nil, or_false, Bool.not_eq_true',
    decide_eq_false_iff_not, not_or] at h
  obtain ⟨h₁, h₂, h₃, h₄, h₅, h₆, h₇, h₈, h₉, hlt, hgt, hslash⟩ := h
  cases k with
  | script => exact ⟨by simp [*], fun h => absurd h hslash, fun h => absurd h hlt⟩
  | attrs => exact ⟨by simp [*], fun h => absurd h hslash⟩
  | markup => exact ⟨h₈, fun h => absurd h hlt⟩

theorem isInert_of_isBlank (h : isBlank x = true) : isInert x = true := by
  simp only [isInert, Bool.not_eq_true', List.contains_eq_any_beq, List.any_eq_false]
  intro y hy heq
  obtain rfl : x = y := by simpa using heq
  revert h
  revert x
  decide

theorem reads_inert (h : Reads k c₀ c) (ha : ∀ x ∈ a, isInert x = true) (ho : c.Over a d) :
    Reads k c₀ d := by
  induction a generalizing c with
  | nil => obtain rfl : c = d := ho.skip; exact h
  | cons x a ih =>
    obtain ⟨e, h₁, h₂⟩ := Cursor.Over.split (a := [x]) ho
    have hx := isPlain_of_isInert (ha x List.mem_cons_self) k c.before e.after
    exact ih (h.plain h₁ hx) (fun y hy => ha y (List.mem_cons_of_mem x hy)) h₂

theorem Parsed.inert (h : Parsed c₀ fs c) (ha : ∀ x ∈ a, isInert x = true) (ho : c.Over a d) :
    Parsed c₀ fs d := by
  obtain ⟨b, hb, hr⟩ := h
  exact ⟨b, hb, reads_inert hr ha ho⟩

/-! ### Closing frame after frame -/

theorem isClosingTag_display {name : Text} (h : name = [] ∨ IsTagName name) :
    IsClosingTag name (Closer.tag name).display :=
  ⟨name ++ ['>'], ⟨h, [], [], by simp, by simp, by simp⟩, by simp [Closer.display]⟩

/-- The shapes of the frame on top of a derivation. -/
theorem Parsed.cases_top (h : Parsed c₀ (f :: fs) c) :
    (∃ x y p, f = .bracket x p ∧ IsPair .script x y) ∨ f.isOpening = true ∨
      ∃ name p, f = ⟨.tag, name, p, .children⟩ ∧ (name = [] ∨ IsTagName name) := by
  obtain ⟨b, hb, -⟩ := h
  cases hb with
  | bracket _ _ hp => exact .inl ⟨_, _, _, rfl, hp.script⟩
  | attrs => exact .inr (.inl rfl)
  | children _ _ ht => exact .inr (.inr ⟨_, _, rfl, .inr ht.isName⟩)
  | fragment => exact .inr (.inr ⟨_, _, rfl, .inl rfl⟩)

/-- A closer takes the innermost frame from a derivation. -/
theorem Parsed.close (h : Parsed c₀ (f :: fs) c) (hf : f.isOpening = false) (hc : f.Closes a)
    (ho : c.Over a d) : Parsed c₀ fs d := by
  rcases h.cases_top with ⟨x, y, p, rfl, hp⟩ | htag | ⟨name, p, rfl, hname⟩
  · generalize hg : Frame.bracket x p = g at hc
    cases hc with
    | tag => simp [Frame.bracket] at hg
    | bracket q hp' =>
      obtain ⟨rfl, rfl⟩ := by simpa [Frame.bracket] using hg
      exact h.closeBracket hp' ho
    | statement q =>
      obtain ⟨rfl, rfl⟩ := by simpa [Frame.bracket] using hg
      obtain ⟨e, h₁, h₂⟩ := Cursor.Over.split (a := [')']) ho
      exact (h.closeBracket (.inl ⟨rfl, rfl⟩) h₁).inert (by decide) h₂
  · rw [htag] at hf; cases hf
  · cases hc with
    | tag => exact h.closeTag (isClosingTag_display hname) ho

theorem Parsed.closeLine {indent closer : Text} (h : Parsed c₀ (f :: fs) c)
    (hf : f.isOpening = false) (hi : ∀ x ∈ indent, Text.isIndent x = true)
    (hc : f.Closes closer) (ho : c.Over (indent ++ closer) d) : Parsed c₀ fs d := by
  obtain ⟨e, h₁, h₂⟩ := ho.split
  exact (h.inert (fun x hx => isInert_of_isBlank (isBlank_of_isIndent (hi x hx))) h₁).close
    hf hc h₂

/-- The closers of all frames complete a derivation. -/
theorem Parsed.closings (h : Parsed c₀ fs c) (hf : ∀ f ∈ fs, f.isOpening = false)
    (hc : Closings fs e) (ho : c.Over e d) : Parsed c₀ [] d := by
  induction hc generalizing c with
  | nil => obtain rfl : c = d := ho.skip; exact h
  | @cons f fs indent closer e hi hcl _ ih =>
    obtain ⟨c₁, h₁, ho⟩ := Cursor.Over.split (a := ['\n']) ho
    obtain ⟨c₂, h₂, ho⟩ := ho.split
    have hline := (h.inert (by decide) h₁).closeLine (hf f List.mem_cons_self) hi hcl h₂
    exact ih hline (fun g hg => hf g (List.mem_cons_of_mem f hg)) ho

/-! ### The end of the shorter text -/

/-- No issue found on the way is that something is never closed. -/
def NoneUnclosed (s : ScanState) : Prop := ∀ i ∈ s.issues, i.kind ≠ .unclosed

theorem NoneUnclosed.apply {s : ScanState} (h : NoneUnclosed s) (m : Move) :
    NoneUnclosed (m.apply s) := by
  have hreport {i : Issue} (hi : i.kind ≠ .unclosed) : ∀ j ∈ i :: s.issues, j.kind ≠ .unclosed :=
    List.forall_mem_cons.mpr ⟨hi, h⟩
  cases m with
  | closeBracket opener x =>
    simp only [NoneUnclosed, Move.apply, advance, closeBracket]
    split
    · exact hreport (by simp [Issue.kind])
    · split
      · exact h
      · exact hreport (by simp [Issue.kind])
  | closeTag name n =>
    simp only [NoneUnclosed, Move.apply, advance, closeTag]
    split
    · intro i hi
      rcases List.mem_append.mp hi with hi | hi
      · obtain ⟨f, -, rfl⟩ := List.mem_map.mp (List.mem_reverse.mp hi)
        simp [Issue.kind]
      · exact h i hi
    · split
      · exact hreport (by simp [Issue.kind])
      · split <;> exact hreport (by simp [Issue.kind])
  | beginChildren =>
    simp only [NoneUnclosed, Move.apply, advance, beginChildren]
    split
    · exact h
    · intro i hi
      obtain ⟨j, hj, rfl⟩ := List.mem_map.mp hi
      rw [Issue.kind_withOpened]
      exact h j hj
  | cutShort top => exact hreport (by simp [Issue.kind])
  | stray top x => exact hreport (by simp [Issue.kind])
  | _ => exact h

/-- Where a scan ends that finds nothing but open frames. -/
structure EndsOpen (t : Text) (s : ScanState) : Prop where
  issues : s.issues = []
  mode : s.stack.mode = .normal ∨ s.stack.mode = .lineComment
  frames : (Scan.ofText t).unclosed.reverse = s.stack.frames
  ne_nil : s.stack.frames ≠ []
  after : s.cursor.after = []

theorem endsOpen_of_isOnlyUnclosed {t : Text} (h : (Scan.ofText t).isOnlyUnclosed = true) :
    ∃ s, Walks (whole t.length) (Scan.start t 0) s ∧ EndsOpen t s := by
  obtain ⟨hi, hafter, hin⟩ := run_whole (P := NoneUnclosed) (inWhole_start t)
    (by simp [NoneUnclosed, Scan.start]) fun _ _ hs => hs.apply _
  refine ⟨_, walks_run _ _, ?_⟩
  have hscan : Scan.ofText t = (run (whole t.length) (Scan.start t 0)).outcome t := rfl
  generalize run _ (Scan.start t 0) = s at hi hafter hin hscan
  rw [outcome, hin.closedAt?] at hscan
  -- the only issue is the one about the frames, as no other is of its kind
  obtain ⟨i, his, hkind⟩ : ∃ i, s.issues.reverse ++ s.openText t ++ s.openFrames = [i] ∧
      i.kind = .unclosed := by
    rw [hscan] at h
    unfold Scan.isOnlyUnclosed at h
    split at h
    · next i hs => exact ⟨i, hs, by simpa using h⟩
    · cases h
  have hnone : i ∉ s.issues.reverse ++ s.openText t := by
    intro hmem
    rcases List.mem_append.mp hmem with hm | hm
    · exact hi i (List.mem_reverse.mp hm) hkind
    · unfold openText at hm
      split at hm
      · obtain rfl := List.mem_singleton.mp hm; cases hkind
      · obtain rfl := List.mem_singleton.mp hm; cases hkind
      · cases hm
  have hnil : s.issues.reverse ++ s.openText t = [] := by
    cases hl : s.issues.reverse ++ s.openText t with
    | nil => rfl
    | cons j js =>
      rw [hl, List.cons_append] at his
      obtain ⟨rfl, -⟩ := List.cons.inj his
      exact absurd (hl ▸ List.mem_cons_self) hnone
  obtain ⟨hissues, htext⟩ := List.append_eq_nil_iff.mp hnil
  refine ⟨List.reverse_eq_nil_iff.mp hissues, ?_, by simp [hscan], fun hf => ?_, hafter⟩
  · unfold openText at htext
    cases hm : s.stack.mode <;> simp_all
  · rw [hnil, openFrames, hf] at his
    cases his

theorem Understood.walks {n : Nat} {s t : ScanState} (h : Understood c₀ s) (hs : InWhole n s)
    (hw : Walks (whole n) s t) : Understood c₀ t := by
  refine (hw.keeps (P := fun s => InWhole n s ∧ Understood c₀ s) (fun hstep hall => ?_)
    ⟨hs, h⟩).2
  obtain ⟨x, rest, ha, rfl⟩ := hall.1.steps hstep
  exact ⟨hall.1.apply _, hall.2.step ha⟩

theorem Opened.exists_closes {b : Cursor} (h : Opened c₀ fs b) : ∀ f ∈ fs, ∃ a, f.Closes a := by
  induction h with
  | nil => exact nofun
  | bracket _ _ hp _ ih => exact List.forall_mem_cons.mpr ⟨⟨_, .bracket _ hp.script⟩, ih⟩
  | attrs _ _ _ ih => exact List.forall_mem_cons.mpr ⟨⟨_, .tag _ _ _⟩, ih⟩
  | children _ _ _ _ _ _ ih => exact List.forall_mem_cons.mpr ⟨⟨_, .tag _ _ _⟩, ih⟩
  | fragment _ _ _ ih => exact List.forall_mem_cons.mpr ⟨⟨_, .tag _ _ _⟩, ih⟩

/-- Every frame that a scan leaves open can be closed, if nothing else is wrong. -/
theorem exists_closes_of_isOnlyUnclosed {t : Text} (h : (Scan.ofText t).isOnlyUnclosed = true) :
    ∀ f ∈ (Scan.ofText t).unclosed, ∃ a, f.Closes a := by
  obtain ⟨s, hw, hs⟩ := endsOpen_of_isOnlyUnclosed h
  have hu : Understood (.ofText t) s :=
    Understood.walks (.clear Opened.nil.parsed) (inWhole_start t) hw
  have hframes : ∀ f ∈ s.stack.frames, ∃ a, f.Closes a := by
    have hissues := hs.issues
    have hmode := hs.mode
    cases hu with
    | clear hp => obtain ⟨b, hb, -⟩ := hp; exact hb.exists_closes
    | lineComment hp => obtain ⟨b, hb, -⟩ := hp; exact hb.exists_closes
    | faulty hne => exact absurd hissues hne
    | _ => rcases hmode with hm | hm <;> cases hm
  exact fun f hf => hframes f (hs.frames ▸ List.mem_reverse.mpr hf)

/-- A newline ends whatever a scan is in that finds nothing but open frames. -/
theorem Understood.newline {s : ScanState} (h : Understood c₀ s) (hissues : s.issues = [])
    (hmode : s.stack.mode = .normal ∨ s.stack.mode = .lineComment)
    (ho : s.cursor.Over ['\n'] d) : Parsed c₀ s.stack.frames d := by
  cases h with
  | clear hp => exact hp.inert (by decide) ho
  | lineComment hp hk hb hc => exact hp.lineComment hk hb (hc.trans ho)
  | faulty hne => exact absurd hissues hne
  | _ => rcases hmode with hm | hm <;> cases hm

/-- The closers of all frames complete what a scan has read that finds nothing but open frames. -/
theorem Understood.closings {s : ScanState} (h : Understood c₀ s) (hissues : s.issues = [])
    (hmode : s.stack.mode = .normal ∨ s.stack.mode = .lineComment) (hne : s.stack.frames ≠ [])
    (hf : ∀ f ∈ s.stack.frames, f.isOpening = false) (he : Closings s.stack.frames e)
    (ho : s.cursor.Over e d) : Parsed c₀ [] d := by
  have hnewline {c : Cursor} := h.newline (d := c) hissues hmode
  generalize s.stack.frames = fs at hne hf he hnewline
  cases he with
  | nil => exact absurd rfl hne
  | @cons f fs indent closer e hi hcl he =>
    obtain ⟨c₁, h₁, ho⟩ := Cursor.Over.split (a := ['\n']) ho
    obtain ⟨c₂, h₂, ho⟩ := ho.split
    have hline := (hnewline h₁).closeLine (hf f List.mem_cons_self) hi hcl h₂
    exact hline.closings (fun g hg => hf g (List.mem_cons_of_mem f hg)) he ho

/-! ### The mount call -/

theorem expressionCanFollow_paren (before : Text) : expressionCanFollow ('(' :: before) = true := by
  rw [expressionCanFollow, List.dropWhile_cons_of_neg (by decide)]
  rfl

theorem Parsed.mount {cfg : Settings} (h : Parsed c₀ [] c)
    (hf : ∀ x ∈ cfg.mountFunction, isInert x = true) (hn : IsTagName cfg.entryName)
    (ho : c.Over cfg.canonicalMount d) : Parsed c₀ [] d := by
  have hsplit : cfg.canonicalMount = cfg.mountFunction ++
      (['('] ++ ('<' :: cfg.entryName ++ ([' '] ++ (['/', '>'] ++ ([')'] ++ [';']))))) := by
    simp [Settings.canonicalMount, Settings.mountExpression, Settings.entryElement]
  rw [hsplit] at ho
  obtain ⟨c₁, h₁, ho⟩ := ho.split
  obtain ⟨c₂, h₂, ho⟩ := ho.split
  obtain ⟨c₃, h₃, ho⟩ := ho.split
  have hcall := (h.inert hf h₁).openBracket (p := 0) (.inl ⟨rfl, rfl⟩) h₂
  have hends : EndsTagName c₃.after := by
    intro z hz
    obtain rfl : ' ' = z := by simpa [ho.after] using hz
    rfl
  have hname : tagName? (cfg.entryName ++ c₃.after) = some cfg.entryName :=
    tagName?_eq_some_iff.mpr ⟨hn, c₃.after, rfl, hends⟩
  have hbegins : opensMarkup c₂.before (cfg.entryName ++ c₃.after) = true := by
    rw [opensMarkup, hname, h₂.before]
    simp [expressionCanFollow_paren]
  have htag : OpensTag .script c₂ cfg.entryName c₃ := ⟨h₃, hn, hends, hbegins⟩
  obtain ⟨c₄, h₄, ho⟩ := ho.split
  obtain ⟨c₅, h₅, ho⟩ := ho.split
  obtain ⟨c₆, h₆, ho⟩ := ho.split
  have helement := ((hcall.openTag (p := 0) htag).inert (by decide) h₄).selfClosing h₅
  exact (helement.closeBracket (.inl ⟨rfl, rfl⟩) h₆).inert (by decide) ho

end ScanState

open ScanState in
/-- If a text ends with a tag, and nothing is wrong with it but that frames are open, none of them
a tag among its attributes, then it is balanced with the closers of the frames, innermost first,
and the mount call behind it. -/
theorem isBalanced_of_closings {cfg : Settings} {t e gap : Text}
    (hf : ∀ x ∈ cfg.mountFunction, isInert x = true) (hn : IsTagName cfg.entryName)
    (hend : t.getLast? = some '>') (honly : (Scan.ofText t).isOnlyUnclosed = true)
    (htags : ∀ f ∈ (Scan.ofText t).unclosed, f.isOpening = false)
    (he : Closings (Scan.ofText t).unclosed.reverse e) (hgap : ∀ x ∈ gap, isBlank x = true) :
    (Scan.ofText (t ++ (e ++ (gap ++ cfg.canonicalMount)))).isBalanced = true := by
  obtain ⟨s, hw, hs⟩ := endsOpen_of_isOnlyUnclosed honly
  have hlike : EndsLikeTag t := fun z hz => by simpa [hend] using hz.symm
  obtain ⟨s', hw', -, -, a, -, hl⟩ :=
    hw.simulate Together.step (together_start (e ++ (gap ++ cfg.canonicalMount)) hlike)
  rw [← List.length_append] at hw'
  have hu : Understood (.ofText (t ++ (e ++ (gap ++ cfg.canonicalMount)))) s' :=
    Understood.walks (.clear Opened.nil.parsed) (inWhole_start _) hw'
  have hafter : s'.cursor.after = e ++ (gap ++ cfg.canonicalMount) := by
    have ha := hl.left
    rw [hs.after, List.append_nil] at ha
    rw [hl.right, ← ha, List.nil_append]
  have hissues : s'.issues = [] := by rw [← hl.issues, hs.issues]
  have hmode : s'.stack.mode = .normal ∨ s'.stack.mode = .lineComment := hl.stack ▸ hs.mode
  have hframes : (Scan.ofText t).unclosed.reverse = s'.stack.frames := hl.stack ▸ hs.frames
  have hne : s'.stack.frames ≠ [] := hl.stack ▸ hs.ne_nil
  have hfs : ∀ f ∈ s'.stack.frames, f.isOpening = false := fun f hf =>
    htags f (List.mem_reverse.mp (hframes ▸ hf))
  rw [hframes] at he
  have ho : s'.cursor.Over (e ++ (gap ++ cfg.canonicalMount)) _ :=
    Cursor.over_skip (r := []) (by rw [hafter, List.append_nil])
  obtain ⟨c₁, h₁, ho⟩ := ho.split
  obtain ⟨c₂, h₂, ho⟩ := ho.split
  have hclosed := hu.closings hissues hmode hne hfs he h₁
  have hmount := (hclosed.inert (fun x hx => isInert_of_isBlank (hgap x hx)) h₂).mount hf hn ho
  refine isBalanced_of_isScript (isScript_of_parsed hmount rfl ?_)
  rw [Cursor.after_skip, hafter, List.drop_length]

end SnippetGate
