import SnippetGate.Proofs.Balance.Tags
import SnippetGate.Proofs.Balance.Walk

/-!
# How open frames lie in the text

Every frame that a walk has open was written in the text before the place the walk has reached,
each inside of the one around it. Closers only close what they can close, and what a walk reports
of a closer stands in the text just there. All of this is kept by every step, so the offsets of
frames and issues can be used to take the text apart, from whatever offset the walk started and
with whatever brackets.
-/

namespace SnippetGate

/-- The delimiter of the frame stands in the text at its offset: the bracket, or the `<` of the tag
and then its name, or a `>` if the tag is a fragment. -/
def Frame.Stands (t : Text) (f : Frame) : Prop :=
  match f.kind with
  | .bracket => ∃ x, f.token = [x] ∧ t[f.pos]? = some x
  | .tag => '<' :: (if f.token = [] then ['>'] else f.token) <+: t.drop f.pos

/-- The piece of text is the closer: one bracket that closes another, or a closing tag of that
name. -/
def Closer.IsWritten (o : ScanOptions) (piece : Text) : Closer → Prop
  | .bracket x => piece = [x] ∧ (o.openerOf? x).isSome = true
  | .tag name => IsClosingTag name piece

/-- An issue about a closer gives the offsets between which the closer stands in the text, and the
opener that the closer met stands before it. -/
def Issue.Shows (o : ScanOptions) (t : Text) (e : Issue) : Prop :=
  e.kind = .mismatch ∨ e.kind = .unmatchedCloser →
    ∃ c ∈ e.closer?, ∃ stop ∈ e.closerEnd?, c.IsWritten o (t.slice e.pos stop) ∧
      ∀ f ∈ e.opener?, f.pos < e.pos

/-- The frames, innermost first, lie one inside of the other in the text, from offset `i` on and
before offset `pos`. Directly inside of a tag whose attributes are being read there is a brace. -/
structure Nested (o : ScanOptions) (t : Text) (i pos : Nat) (fs : List Frame) : Prop where
  ordered : fs.Pairwise fun inner outer => outer.pos < inner.pos
  bounds : ∀ f ∈ fs, i ≤ f.pos ∧ f.pos < pos
  stands : ∀ f ∈ fs, f.Stands t
  braced : fs.IsChain fun inner outer => outer.isOpening = true → inner = .bracket '{' inner.pos
  phased : ∀ f ∈ fs, f.kind = .tag → f.phase ≠ .unset
  tracked : o.tracksTags = false → ∀ f ∈ fs, f.kind = .bracket

namespace Nested

variable {o : ScanOptions} {t : Text} {i pos pos' : Nat} {f : Frame} {fs gone : List Frame}

theorem nil : Nested o t i pos [] :=
  ⟨.nil, List.forall_mem_nil _, List.forall_mem_nil _, .nil, List.forall_mem_nil _,
    fun _ => List.forall_mem_nil _⟩

/-- Farther on in the text, the frames lie before the place all the more. -/
theorem mono (h : Nested o t i pos fs) (hp : pos ≤ pos') : Nested o t i pos' fs :=
  { h with bounds := fun f hf => ⟨(h.bounds f hf).1, Nat.lt_of_lt_of_le (h.bounds f hf).2 hp⟩ }

/-- What is left when the innermost frames are closed. -/
theorem of_append (h : Nested o t i pos (gone ++ fs)) : Nested o t i pos fs where
  ordered := (List.pairwise_append.mp h.ordered).2.1
  bounds f hf := h.bounds f (List.mem_append_right gone hf)
  stands f hf := h.stands f (List.mem_append_right gone hf)
  braced := h.braced.right_of_append
  phased f hf := h.phased f (List.mem_append_right gone hf)
  tracked ho f hf := h.tracked ho f (List.mem_append_right gone hf)

theorem tail (h : Nested o t i pos (f :: fs)) : Nested o t i pos fs :=
  (show Nested o t i pos ([f] ++ fs) from h).of_append

/-- A frame opened here lies inside of all others. -/
theorem cons (h : Nested o t i pos fs) (hf : f.pos = pos) (hi : i ≤ pos) (hp : pos < pos')
    (hs : f.Stands t) (hb : ∀ g ∈ fs.head?, g.isOpening = true → f = .bracket '{' f.pos)
    (hph : f.kind = .tag → f.phase ≠ .unset)
    (ht : o.tracksTags = false → f.kind = .bracket) : Nested o t i pos' (f :: fs) where
  ordered := List.pairwise_cons.mpr ⟨fun g hg => hf ▸ (h.bounds g hg).2, h.ordered⟩
  bounds := List.forall_mem_cons.mpr ⟨⟨hf ▸ hi, hf ▸ hp⟩, (h.mono hp.le).bounds⟩
  stands := List.forall_mem_cons.mpr ⟨hs, h.stands⟩
  braced := List.isChain_cons.mpr ⟨hb, h.braced⟩
  phased := List.forall_mem_cons.mpr ⟨hph, h.phased⟩
  tracked ho := List.forall_mem_cons.mpr ⟨ht ho, h.tracked ho⟩

/-- The innermost frame is read past its attributes. -/
theorem beginChildren (h : Nested o t i pos (f :: fs)) (hf : f.isOpening = true) :
    Nested o t i pos ({ f with phase := .children } :: fs) := by
  have hkind : f.kind = .tag := by
    simp only [Frame.isOpening, Bool.and_eq_true, beq_iff_eq] at hf
    exact hf.1
  obtain ⟨hb, hbs⟩ := List.isChain_cons.mp h.braced
  refine
    { ordered := List.pairwise_cons.mpr (List.pairwise_cons.mp h.ordered)
      bounds := List.forall_mem_cons.mpr (List.forall_mem_cons.mp h.bounds)
      stands := List.forall_mem_cons.mpr
        ⟨h.stands f List.mem_cons_self, h.tail.stands⟩
      braced := List.isChain_cons.mpr ⟨fun g hg ho => ?_, hbs⟩
      phased := List.forall_mem_cons.mpr ⟨fun _ => ?_, (List.forall_mem_cons.mp h.phased).2⟩
      tracked := fun ho => List.forall_mem_cons.mpr (List.forall_mem_cons.mp (h.tracked ho)) }
  · -- No tag that is read past its attributes was directly inside of one that is not.
    have := congrArg Frame.kind (hb g hg ho)
    rw [hkind] at this
    cases this
  · exact nofun

/-- Of tags directly inside of each other, all are read past their attributes if the innermost
is. -/
theorem children_of_tags (h : Nested o t i pos (gone ++ fs))
    (htop : ∀ f ∈ (gone ++ fs).head?, f.isOpening = false) (hk : ∀ f ∈ gone, f.kind = .tag) :
    ∀ f ∈ gone, f.phase = .children := by
  induction gone with
  | nil => exact List.forall_mem_nil _
  | cons f gone ih =>
    obtain ⟨hf, hgone⟩ := List.forall_mem_cons.mp hk
    have hclosed : f.phase ≠ .attrs := by
      have := htop f rfl
      simpa [Frame.isOpening, hf] using this
    have hset : f.phase ≠ .unset := h.phased f List.mem_cons_self hf
    refine List.forall_mem_cons.mpr ⟨?_, ih h.tail (fun g hg => ?_) hgone⟩
    · cases hphase : f.phase with
      | unset => exact absurd hphase hset
      | attrs => exact absurd hphase hclosed
      | children => rfl
    · by_contra ho
      rw [Bool.not_eq_false] at ho
      have := congrArg Frame.kind ((List.isChain_cons.mp h.braced).1 g hg ho)
      rw [hf] at this
      cases this

end Nested

/-- The tags that a closing tag closes, and the one of its name, are the innermost frames. It goes
past no tag of its name. -/
theorem ScanState.splitAtTag?_spec {name : Text} {fs inner outer : List Frame}
    (h : splitAtTag? name fs = some (inner, outer)) :
    ∃ f, fs = inner ++ f :: outer ∧ f.token = name ∧ (∀ g ∈ inner ++ [f], g.kind = .tag) ∧
      ∀ g ∈ inner, g.token ≠ name := by
  induction fs generalizing inner with
  | nil => cases h
  | cons g fs ih =>
    rw [splitAtTag?] at h
    split at h
    · cases h
    next hk =>
    have htag : g.kind = .tag := by
      cases hg : g.kind with
      | bracket => exact absurd hg hk
      | tag => rfl
    split at h
    · next hname =>
      obtain ⟨rfl, rfl⟩ := by simpa using h
      exact ⟨g, rfl, hname, List.forall_mem_singleton.mpr htag, List.forall_mem_nil _⟩
    · next hname =>
      obtain ⟨⟨inner', outer'⟩, hio, he⟩ := Option.map_eq_some_iff.mp h
      obtain ⟨rfl, rfl⟩ := by simpa using he
      obtain ⟨f, rfl, htoken, hall, hother⟩ := ih hio
      exact ⟨f, rfl, htoken, List.forall_mem_cons.mpr ⟨htag, hall⟩,
        List.forall_mem_cons.mpr ⟨hname, hother⟩⟩

namespace Move

/-! ### What a move is made for -/

/-- What stands in the text at the offset `pos` of a move, and what is open there. -/
def Reads (o : ScanOptions) (t : Text) (pos : Nat) (frames : List Frame) : Move → Prop
  | pass _ => True
  | enter _ _ _ => True
  | leave _ => True
  | openBracket x => t[pos]? = some x ∧ ∀ top ∈ frames.head?, top.isOpening = true → x = '{'
  | openTag name phase n =>
    (⟨.tag, name, pos, phase⟩ : Frame).Stands t ∧ phase ≠ .unset ∧ 0 < n ∧ o.tracksTags = true ∧
      ∀ top ∈ frames.head?, top.isOpening = false
  | closeBracket opener x =>
    t[pos]? = some x ∧ o.openerOf? x = some opener ∧ ∀ top ∈ frames.head?, top.kind = .bracket
  | closeTag name n =>
    IsClosingTag name (t.slice pos (pos + n)) ∧ ∀ top ∈ frames.head?, top.isOpening = false
  | endTag _ => ∃ top ∈ frames.head?, top.isOpening = true
  | beginChildren => ∃ top ∈ frames.head?, top.isOpening = true
  | cutShort top => frames.head? = some top ∧ top.isOpening = true
  | stray top x =>
    t[pos]? = some x ∧ (o.openerOf? x).isSome = true ∧ frames.head? = some top ∧
      top.isOpening = true

variable {o : ScanOptions} {t rest : Text} {pos : Nat} {frames : List Frame} {x : Char}
  {y : Option Char}

theorem opening_reads (ht : t.drop pos = '<' :: rest) (ho : o.tracksTags = true)
    (htop : ∀ top ∈ frames.head?, top.isOpening = false)
    (hrest : rest.head? = some '>' ∨ (tagName? rest).isSome = true) :
    (opening rest).Reads o t pos frames := by
  unfold opening
  split
  · next hgt =>
    obtain ⟨r, rfl⟩ := List.head?_eq_some_iff.mp hgt
    refine ⟨?_, nofun, by omega, ho, htop⟩
    exact ⟨r, ht.symm⟩
  · next hgt =>
    obtain ⟨name, hname⟩ := Option.isSome_iff_exists.mp (hrest.resolve_left hgt)
    obtain ⟨⟨a, b, rfl, -, -⟩, r, rfl, -⟩ := tagName?_eq_some_iff.mp hname
    rw [hname]
    refine ⟨?_, nofun, by omega, ho, htop⟩
    exact ⟨r, ht.symm⟩

theorem closing_reads (ht : t.drop pos = '<' :: '/' :: rest)
    (htop : ∀ top ∈ frames.head?, top.isOpening = false) :
    (closing rest).Reads o t pos frames := by
  unfold closing
  split
  · next name n hn =>
    obtain ⟨piece, r, hpiece, rfl, rfl⟩ := closingTagRest?_eq_some_iff.mp hn
    refine ⟨?_, htop⟩
    have hslice : t.slice pos (pos + (piece.length + 2)) = '<' :: '/' :: piece := by
      rw [Text.slice, List.drop_take, ht, Nat.add_sub_cancel_left]
      simp
    rw [hslice]
    exact ⟨piece, hpiece, rfl⟩
  · trivial

/-- What the next character but one is, if it is looked at. -/
theorem rest_eq_of_second {c : Char} (hy : ∀ d ∈ y, rest.head? = some d) (hc : y = some c) :
    rest = c :: rest.tail := by
  obtain ⟨r, rfl⟩ := List.head?_eq_some_iff.mp (hy c hc)
  rfl

theorem inMarkup_reads (ht : t.drop pos = x :: rest) (hy : ∀ c ∈ y, rest.head? = some c)
    (ho : o.tracksTags = true) (htop : ∀ top ∈ frames.head?, top.isOpening = false) :
    (inMarkup x y rest).Reads o t pos frames := by
  unfold inMarkup
  split
  · next hx =>
    subst hx
    refine ⟨?_, fun _ _ _ => rfl⟩
    rw [← List.head?_drop, ht, List.head?_cons]
  split
  · next hx =>
    split
    · next hslash => exact closing_reads (by rw [ht, hx, ← rest_eq_of_second hy hslash]) htop
    split
    · next hopen => exact opening_reads (hx ▸ ht) ho htop (hopen.imp_left (hy _))
    · trivial
  · trivial

theorem inAttrs_reads {top : Frame} {fs : List Frame} (ht : t.drop pos = x :: rest)
    (htop : top.isOpening = true) : (inAttrs o top x y).Reads o t pos (top :: fs) := by
  have hx : t[pos]? = some x := by rw [← List.head?_drop, ht, List.head?_cons]
  unfold inAttrs
  split
  · trivial
  split
  · next he => exact ⟨hx, fun _ _ _ => he⟩
  split
  · exact ⟨top, rfl, htop⟩
  split
  · split
    · exact ⟨top, rfl, htop⟩
    · exact ⟨top, rfl, htop⟩
  split
  · exact ⟨rfl, htop⟩
  split
  · next hc => exact ⟨hx, hc, rfl, htop⟩
  · trivial

theorem inScript_reads {invited : Bool} (ht : t.drop pos = x :: rest)
    (hy : ∀ c ∈ y, rest.head? = some c) (htop : ∀ top ∈ frames.head?, top.kind = .bracket) :
    (inScript o invited x y rest).Reads o t pos frames := by
  have hx : t[pos]? = some x := by rw [← List.head?_drop, ht, List.head?_cons]
  have hclosed : ∀ top ∈ frames.head?, top.isOpening = false := fun top hm => by
    simp [Frame.isOpening, htop top hm]
  unfold inScript
  split
  · trivial
  split
  · trivial
  split
  · trivial
  split
  · exact ⟨hx, fun top hm ho => by simp [hclosed top hm] at ho⟩
  split
  · next opener hc => exact ⟨hx, hc, htop⟩
  split
  · next hlt =>
    split
    · next hslash =>
      exact closing_reads (by rw [ht, hlt.2, ← rest_eq_of_second hy hslash]) hclosed
    split
    · next hopen => exact opening_reads (hlt.2 ▸ ht) hlt.1 hclosed hopen.1
    · trivial
  · trivial

/-- Every move is made for what stands in the text. -/
theorem next_reads {stack : BracketStack} {invited : Bool} (ht : t.drop pos = x :: rest)
    (hy : ∀ c ∈ y, rest.head? = some c)
    (hk : o.tracksTags = false → ∀ f ∈ stack.frames, f.kind = .bracket) :
    (next o stack invited x y rest).Reads o t pos stack.frames := by
  unfold next
  split
  · unfold inString
    repeat' split
    all_goals trivial
  · unfold inLineComment
    split <;> trivial
  · unfold inBlockComment
    split <;> trivial
  unfold outside
  split
  · next hf => exact hf ▸ inScript_reads ht hy (by simp)
  next top fs hf =>
  rw [hf] at hk ⊢
  have hhead {P : Frame → Prop} (h : P top) : ∀ f ∈ (top :: fs).head?, P f := by simpa using h
  split
  · next ho =>
    cases hkind : top.kind with
    | bracket =>
      have hc : top.context = .script := by rw [Frame.context, hkind]
      rw [hc]
      exact inScript_reads ht hy (hhead hkind)
    | tag =>
      by_cases hphase : top.phase = .attrs
      · have hc : top.context = .attrs := by simp [Frame.context, hkind, hphase]
        rw [hc]
        exact inAttrs_reads ht (by simp [Frame.isOpening, hkind, hphase])
      · have hc : top.context = .markup := by simp [Frame.context, hkind, hphase]
        rw [hc]
        exact inMarkup_reads ht hy ho (hhead (by simp [Frame.isOpening, hphase]))
  · next ho =>
    rw [Bool.not_eq_true] at ho
    exact inScript_reads ht hy (hhead (hk ho top List.mem_cons_self))

/-! ### What a move does to the open frames -/

/-- What a move at offset `pos` does to the open frames. A closing bracket closes nothing but a
bracket. A closing tag closes nothing but tags that are read past their attributes, and these are
the innermost frames, so that no bracket stands between them. -/
def Changes (pos : Nat) (before after : List Frame) : Move → Prop
  | pass _ => after = before
  | enter _ _ _ => after = before
  | leave _ => after = before
  | openBracket x => after = .bracket x pos :: before
  | openTag name phase _ => after = ⟨.tag, name, pos, phase⟩ :: before
  | closeBracket _ _ =>
    ∃ gone, before = gone ++ after ∧ gone.length ≤ 1 ∧ ∀ f ∈ gone, f.kind = .bracket
  | closeTag _ _ =>
    ∃ gone, before = gone ++ after ∧ ∀ f ∈ gone, f.kind = .tag ∧ f.phase = .children
  | endTag _ => ∃ top, before = top :: after ∧ top.isOpening = true
  | beginChildren =>
    ∃ top fs, before = top :: fs ∧ top.isOpening = true ∧
      after = { top with phase := .children } :: fs
  | cutShort top => before = top :: after ∧ top.isOpening = true
  | stray _ _ => after = before

variable {s : ScanState} {m : Move} {i : Nat}

theorem changes_closeBracket {opener x : Char}
    (hr : (closeBracket opener x).Reads o t pos s.stack.frames) :
    (closeBracket opener x).Changes pos s.stack.frames
      ((closeBracket opener x).apply s).stack.frames := by
  simp only [apply, ScanState.advance, ScanState.closeBracket]
  split
  · exact ⟨[], rfl, Nat.zero_le 1, List.forall_mem_nil _⟩
  · next top fs hf =>
    have hpop : (closeBracket opener x).Changes pos s.stack.frames s.pop.stack.frames := by
      refine ⟨[top], ?_, Nat.le_refl 1, List.forall_mem_singleton.mpr (hr.2.2 top ?_)⟩
      · simp [ScanState.pop, BracketStack.pop, hf]
      · rw [hf, List.head?_cons]
        exact rfl
    split
    · exact hpop
    · exact hpop

theorem changes_closeTag {name : Text} {n : Nat} (h : Nested o t i pos s.stack.frames)
    (hr : (closeTag name n).Reads o t pos s.stack.frames) :
    (closeTag name n).Changes pos s.stack.frames ((closeTag name n).apply s).stack.frames := by
  -- Of the frames that go, it is enough to know that they are tags.
  have tags {gone after : List Frame} (he : s.stack.frames = gone ++ after)
      (hk : ∀ f ∈ gone, f.kind = .tag) :
      (closeTag name n).Changes pos s.stack.frames after := by
    have hall := Nested.children_of_tags (he ▸ h) (he ▸ hr.2) hk
    exact ⟨gone, he, fun f hf => ⟨hk f hf, hall f hf⟩⟩
  simp only [apply, ScanState.advance, ScanState.closeTag]
  split
  · next hsplit =>
    obtain ⟨f, he, -, hk, -⟩ := ScanState.splitAtTag?_spec hsplit
    exact tags (by rw [he, List.append_assoc]; rfl) hk
  split
  · exact tags rfl (List.forall_mem_nil _)
  · next top fs hf =>
    split
    · next hk =>
      refine tags (?_ : s.stack.frames = [top] ++ _) (List.forall_mem_singleton.mpr hk)
      simp [ScanState.pop, BracketStack.pop, ScanState.report, hf]
    · exact tags rfl (List.forall_mem_nil _)

theorem changes_apply (h : Nested o t i s.cursor.pos s.stack.frames)
    (hr : m.Reads o t s.cursor.pos s.stack.frames) :
    m.Changes s.cursor.pos s.stack.frames (m.apply s).stack.frames := by
  have hpop {top : Frame} (ht : s.stack.frames.head? = some top) :
      s.stack.frames = top :: s.stack.frames.tail := by
    obtain ⟨fs, hf⟩ := List.head?_eq_some_iff.mp ht
    rw [hf, List.tail_cons]
  cases m with
  | pass n => rfl
  | enter mode quote n => rfl
  | leave n => rfl
  | openBracket x => rfl
  | openTag name phase n => rfl
  | closeBracket opener x => exact changes_closeBracket hr
  | closeTag name n => exact changes_closeTag h hr
  | endTag n =>
    obtain ⟨top, ht, ho⟩ := hr
    exact ⟨top, hpop ht, ho⟩
  | beginChildren =>
    obtain ⟨top, ht, ho⟩ := hr
    refine ⟨top, s.stack.frames.tail, hpop ht, ho, ?_⟩
    simp only [apply, ScanState.advance, ScanState.beginChildren]
    rw [hpop ht]
    rfl
  | cutShort top => exact ⟨hpop hr.1, hr.2⟩
  | stray top x => rfl

/-- Frames that lie one inside of the other still do after a move. -/
theorem nested_apply (h : Nested o t i s.cursor.pos s.stack.frames) (hi : i ≤ s.cursor.pos)
    (ha : s.cursor.after ≠ []) (hr : m.Reads o t s.cursor.pos s.stack.frames) :
    Nested o t i (m.apply s).cursor.pos (m.apply s).stack.frames := by
  have hlength := List.length_pos_iff.mpr ha
  have hpos : (m.apply s).cursor.pos = s.cursor.pos + min m.length s.cursor.after.length := by
    rw [cursor_apply, Cursor.pos_skip]
  have hle : s.cursor.pos ≤ (m.apply s).cursor.pos := by omega
  have hchange := changes_apply h hr
  generalize (m.apply s).stack.frames = fs at hchange ⊢
  cases m with
  | pass n => exact hchange ▸ h.mono hle
  | enter mode quote n => exact hchange ▸ h.mono hle
  | leave n => exact hchange ▸ h.mono hle
  | openBracket x =>
    rw [show fs = _ from hchange]
    refine h.cons rfl hi ?_ ⟨x, rfl, hr.1⟩ (fun g hg ho => ?_) nofun fun _ => rfl
    · simp only [length] at hpos
      omega
    · rw [hr.2 g hg ho]
      rfl
  | openTag name phase n =>
    obtain ⟨hs, hphase, hn, ho, htop⟩ := hr
    rw [show fs = _ from hchange]
    refine h.cons rfl hi ?_ hs (fun g hg hg' => ?_) (fun _ => hphase) fun ho' => ?_
    · simp only [length] at hpos
      omega
    · simp [htop g hg] at hg'
    · simp [ho] at ho'
  | closeBracket opener x =>
    obtain ⟨gone, he, -⟩ := hchange
    exact (he ▸ h).of_append.mono hle
  | closeTag name n =>
    obtain ⟨gone, he, -⟩ := hchange
    exact (he ▸ h).of_append.mono hle
  | endTag n =>
    obtain ⟨top, he, -⟩ := hchange
    exact (he ▸ h).tail.mono hle
  | beginChildren =>
    obtain ⟨top, fs', he, ho, rfl⟩ := hchange
    exact ((he ▸ h).beginChildren ho).mono hle
  | cutShort top => exact (hchange.1 ▸ h).tail.mono hle
  | stray top x => exact hchange ▸ h.mono hle

/-! ### What a move reports -/

end Move

namespace Issue

variable {o : ScanOptions} {t : Text} {pos stop : Nat} {c : Closer} {e : Issue}

theorem shows_unmatched (hc : c.IsWritten o (t.slice pos stop)) :
    Shows o t ⟨.unmatched c, pos, some stop⟩ :=
  fun _ => ⟨c, rfl, stop, rfl, hc, fun f hf => absurd hf (Option.not_mem_none f)⟩

theorem shows_mismatch {f : Frame} {deeper : Bool} (hc : c.IsWritten o (t.slice pos stop))
    (hf : f.pos < pos) : Shows o t ⟨.mismatch f c deeper, pos, some stop⟩ :=
  fun _ => ⟨c, rfl, stop, rfl, hc, fun _ hg => Option.some.inj hg ▸ hf⟩

/-- That the opener is read past its attributes does not matter to what the issue shows. -/
theorem Shows.withOpened (h : e.Shows o t) (p : Nat) : (e.withOpened p).Shows o t := by
  obtain ⟨cause, pos, stop⟩ := e
  cases cause with
  | mismatch f c deeper =>
    simp only [Issue.withOpened]
    split
    · intro _
      obtain ⟨c', hc, stop', hs, hw, hf⟩ := h (.inl rfl)
      exact ⟨c', hc, stop', hs, hw, fun _ hg => Option.some.inj hg ▸ hf f rfl⟩
    · exact h
  | _ => exact h

end Issue

namespace Move

variable {o : ScanOptions} {t : Text} {i : Nat} {s : ScanState} {m : Move}

/-- A bracket that closes another, as it stands in the text. -/
theorem isWritten_bracket {x : Char} {pos : Nat} (hx : t[pos]? = some x)
    (hc : (o.openerOf? x).isSome = true) :
    (Closer.bracket x).IsWritten o (t.slice pos (pos + 1)) := by
  refine ⟨?_, hc⟩
  obtain ⟨hlt, rfl⟩ := List.getElem?_eq_some_iff.mp hx
  rw [Text.slice, List.drop_take, Nat.add_sub_cancel_left, List.take_one_drop_eq_of_lt_length hlt,
    List.get_eq_getElem]

/-- Issues that show what stands in the text still do after a move. -/
theorem shows_apply (h : Nested o t i s.cursor.pos s.stack.frames)
    (hr : m.Reads o t s.cursor.pos s.stack.frames) (hs : ∀ e ∈ s.issues, e.Shows o t) :
    ∀ e ∈ (m.apply s).issues, e.Shows o t := by
  cases m with
  | pass n => exact hs
  | enter mode quote n => exact hs
  | leave n => exact hs
  | openBracket x => exact hs
  | openTag name phase n => exact hs
  | closeBracket opener x =>
    have hw := isWritten_bracket hr.1 (Option.isSome_of_eq_some hr.2.1)
    simp only [apply, ScanState.advance, ScanState.closeBracket]
    split
    · exact List.forall_mem_cons.mpr ⟨Issue.shows_unmatched hw, hs⟩
    · next top fs hf =>
      split
      · exact hs
      · refine List.forall_mem_cons.mpr ⟨Issue.shows_mismatch hw ?_, hs⟩
        exact (h.bounds top (hf ▸ List.mem_cons_self)).2
  | closeTag name n =>
    have hw : (Closer.tag name).IsWritten o (t.slice s.cursor.pos (s.cursor.pos + n)) := hr.1
    simp only [apply, ScanState.advance, ScanState.closeTag]
    split
    · next inner outer hsplit =>
      obtain ⟨f, he, -⟩ := ScanState.splitAtTag?_spec hsplit
      refine List.forall_mem_append.mpr ⟨fun e hm => ?_, hs⟩
      obtain ⟨g, hg, rfl⟩ := List.mem_map.mp (List.mem_reverse.mp hm)
      refine Issue.shows_mismatch hw (h.bounds g ?_).2
      exact he ▸ List.mem_append_left _ hg
    · split
      · exact List.forall_mem_cons.mpr ⟨Issue.shows_unmatched hw, hs⟩
      · next top fs hf =>
        split
        · refine List.forall_mem_cons.mpr ⟨Issue.shows_mismatch hw ?_, hs⟩
          exact (h.bounds top (hf ▸ List.mem_cons_self)).2
        · exact List.forall_mem_cons.mpr ⟨Issue.shows_unmatched hw, hs⟩
  | endTag n => exact hs
  | beginChildren =>
    simp only [apply, ScanState.advance, ScanState.beginChildren]
    split
    · exact hs
    · intro e he
      obtain ⟨e', he', rfl⟩ := List.mem_map.mp he
      exact (hs e' he').withOpened _
  | cutShort top => exact List.forall_mem_cons.mpr ⟨fun hk => by simp [Issue.kind] at hk, hs⟩
  | stray top x =>
    obtain ⟨hx, hc, htop, -⟩ := hr
    refine List.forall_mem_cons.mpr ⟨Issue.shows_mismatch (isWritten_bracket hx hc) ?_, hs⟩
    exact (h.bounds top (List.mem_of_mem_head? htop)).2

end Move

namespace ScanState

variable {o : ScanOptions} {t : Text} {i : Nat} {s u : ScanState}

/-- A place of a walk over the text from offset `i` on, with all that is open and all that is
reported there. -/
structure Orderly (o : ScanOptions) (t : Text) (i : Nat) (s : ScanState) : Prop where
  begun : i ≤ s.cursor.pos
  after : s.cursor.after = t.drop s.cursor.pos
  nested : Nested o t i s.cursor.pos s.stack.frames
  shows : ∀ e ∈ s.issues, e.Shows o t

/-- A step from one place to another is a move that is made for what stands in the text, and that
opens and closes what it may. -/
def MovesOrderly (o : ScanOptions) (t : Text) (s u : ScanState) : Prop :=
  ∃ x rest, s.cursor.after = x :: rest ∧
    (s.move o x rest).Reads o t s.cursor.pos s.stack.frames ∧
    (s.move o x rest).Changes s.cursor.pos s.stack.frames u.stack.frames

theorem orderly_start (o : ScanOptions) (t : Text) (i : Nat) :
    Orderly o t i (Scan.start t i) :=
  ⟨Nat.le_refl i, rfl, .nil, List.forall_mem_nil _⟩

@[simp] theorem issues_noteBalance (s : ScanState) (o : ScanOptions) :
    (s.noteBalance o).issues = s.issues := by
  unfold noteBalance
  split
  · rfl
  · split
    · rfl
    · split <;> rfl

theorem Orderly.noteBalance (h : Orderly o t i s) : Orderly o t i (s.noteBalance o) :=
  ⟨by simpa using h.begun, by simpa using h.after, by simpa using h.nested,
    by simpa using h.shows⟩

theorem Orderly.reads (h : Orderly o t i s) {x : Char} {rest : Text}
    (ha : s.cursor.after = x :: rest) :
    (s.move o x rest).Reads o t s.cursor.pos s.stack.frames := by
  refine Move.next_reads (h.after ▸ ha) (fun c hc => ?_) h.nested.tracked
  rw [second?] at hc
  split at hc
  · exact hc
  · cases hc

theorem Orderly.apply (h : Orderly o t i s) {m : Move} (ha : s.cursor.after ≠ [])
    (hr : m.Reads o t s.cursor.pos s.stack.frames) : Orderly o t i (m.apply s) where
  begun := h.begun.trans (by rw [Move.cursor_apply]; exact Cursor.pos_le_pos_skip _ _)
  after := by
    rw [Move.cursor_apply]
    exact Cursor.after_skip_eq_drop h.after _
  nested := Move.nested_apply h.nested h.begun ha hr
  shows := Move.shows_apply h.nested hr h.shows

/-- From an orderly place, a step is orderly and leads to an orderly place. -/
theorem Orderly.step (h : Orderly o t i s) (hst : Steps o s u) :
    MovesOrderly o t s u ∧ Orderly o t i u := by
  rw [Steps, next?] at hst
  split at hst
  · cases hst
  split at hst
  · cases hst
  next x rest ha =>
  obtain rfl := Option.some.inj hst
  have hr := h.reads ha
  have happly : Orderly o t i ((s.move o x rest).apply s) :=
    h.apply (by rw [ha]; exact List.cons_ne_nil x rest) hr
  rw [step_eq_apply]
  split
  · refine ⟨⟨x, rest, ha, hr, ?_⟩, happly.noteBalance⟩
    rw [stack_noteBalance]
    exact Move.changes_apply h.nested hr
  · exact ⟨⟨x, rest, ha, hr, Move.changes_apply h.nested hr⟩, happly⟩

theorem Walks.orderly (hs : Walks o (Scan.start t i) s) : Orderly o t i s :=
  hs.keeps (fun hst h => (h.step hst).2) (orderly_start o t i)

/-- All places of a walk are orderly, and so is every step that leads on from them, for all options
and wherever the walk started. -/
theorem orderly_of_walks (h : Walks o (Scan.start t i) s) :
    Orderly o t i s ∧ ∀ u, Steps o s u → MovesOrderly o t s u := by
  have hs := Walks.orderly h
  exact ⟨hs, fun u hst => (hs.step hst).1⟩

theorem orderly_of_walks_crossed :
    let t := "x(<a b=\x7b1]><i></c></a>".toList
    let s := run (whole 22) (Scan.start t 1)
    s.stack.frames = [.bracket '(' 1] ∧ s.issues.map Issue.kind = [.mismatch, .mismatch] ∧
      Orderly (whole 22) t 1 s ∧ ∀ u, Steps (whole 22) s u → MovesOrderly (whole 22) t s u := by
  intro t s
  have hrun : s.stack.frames = [.bracket '(' 1] ∧
      s.issues.map Issue.kind = [.mismatch, .mismatch] := by decide +kernel
  exact ⟨hrun.1, hrun.2, orderly_of_walks (walks_run _ _)⟩

end ScanState

end SnippetGate
