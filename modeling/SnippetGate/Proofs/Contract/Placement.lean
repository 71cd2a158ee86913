import SnippetGate.Proofs.Balance.ReadAt
import SnippetGate.Proofs.Contract.Mount

/-!
# Where the words of the contract stand

The contract looks for the declaration of the entry point and for the mount call without regard to
how the text around them is read. That a text is balanced, and that nothing follows the mount call,
still excludes most places for them: the mount call can only be script under no open frame, or begin
inside of a comment that ends with the line; the declaration cannot stand among the attributes of a
tag.
-/

namespace SnippetGate

open Pattern Grammar ScanState

/-! ### How a mount call is read -/

section

variable {c d : Cursor} {k : Context} {name b b₁ b₂ b₃ w : Text}

theorem isInert_of_isTagNameChar {x : Char} (h : isTagNameChar x = true) : isInert x = true := by
  simp only [isInert, Bool.not_eq_true', List.contains_eq_any_beq, List.any_eq_false]
  intro y hy heq
  obtain rfl : x = y := by simpa using heq
  revert h
  revert x
  decide

theorem expressionCanFollow_blanks (hb : ∀ x ∈ b, isBlank x = true) (l : Text) :
    expressionCanFollow (b.reverse ++ '(' :: l) = true := by
  have hdrop : (b.reverse ++ '(' :: l).dropWhile isBlank = '(' :: l := by
    rw [List.dropWhile_append_of_pos (by simpa using hb), List.dropWhile_cons_of_neg (by decide)]
  rw [expressionCanFollow, hdrop]
  rfl

theorem endsTagName_blanks {r : Text} (hb : ∀ x ∈ b, isBlank x = true) :
    EndsTagName (b ++ '/' :: r) := by
  cases b with
  | nil => rintro _ ⟨⟩; decide
  | cons x b => rintro _ ⟨⟩; exact not_isTagNameChar_of_isBlank (hb x List.mem_cons_self)

theorem reads_blanks (h : Reads k c d) {e : Cursor} (hb : ∀ x ∈ b, isBlank x = true)
    (ho : d.Over b e) : Reads k c e :=
  reads_inert h (fun x hx => isInert_of_isBlank (hb x hx)) ho

/-- A `<` before a blank means nothing in script and markup. -/
theorem isPlain_lt {x : Char} {before r : Text} (hk : k = .script ∨ k = .markup)
    (hx : isBlank x = true) : IsPlain k before '<' (x :: r) := by
  have hne {y : Char} (hy : isBlank y = false) : x ≠ y := by
    rintro rfl
    simp [hx] at hy
  have htag : tagName? (x :: r) = none := tagName?_eq_none_of_head? (by
    rintro _ ⟨⟩
    by_contra ha
    simp [not_isBlank_of_isAlpha (by simpa using ha)] at hx)
  have hbegins : ¬ ((x :: r).head? = some '>' ∨ (tagName? (x :: r)).isSome = true) := by
    simp [htag, hne (y := '>') (by decide)]
  have hcloser : ¬ BeginsWithClosingTag ('<' :: x :: r) := by
    rintro ⟨name, _, q, ⟨rest, -, rfl⟩, he⟩
    exact hne (y := '/') (by decide) (List.cons.inj (List.cons.inj he).2).1
  rcases hk with rfl | rfl
  · refine ⟨by decide, nofun, fun _ => ⟨fun hb => hbegins ?_, hcloser⟩⟩
    rw [BeginsElement, opensMarkup, Bool.and_eq_true] at hb
    simpa using hb.1
  · exact ⟨by decide, fun _ => ⟨hbegins, hcloser⟩⟩

/-- An element that closes itself is read in script and markup where an expression can follow, with
any blanks around its name. With blanks before the name it is no element, but passed over. -/
theorem reads_selfClosing (hk : k = .script ∨ k = .markup)
    (he : expressionCanFollow c.before = true) (hname : IsTagName name)
    (hb₂ : ∀ x ∈ b₂, isBlank x = true) (hb₃ : ∀ x ∈ b₃, isBlank x = true)
    (ho : c.Over (['<'] ++ (b₂ ++ (name ++ (b₃ ++ "/>".toList)))) d) : Reads k c d := by
  obtain ⟨c₁, h₁, ho⟩ := ho.split
  obtain ⟨c₂, h₂, ho⟩ := ho.split
  obtain ⟨c₃, h₃, ho⟩ := ho.split
  obtain ⟨c₄, h₄, hclose⟩ := ho.split
  cases b₂ with
  | nil =>
    obtain rfl : c₁ = c₂ := h₂.skip
    have hends : EndsTagName c₃.after := by
      rw [h₄.after, hclose.after]
      exact endsTagName_blanks hb₃
    have hq : tagName? (name ++ c₃.after) = some name :=
      tagName?_eq_some_iff.mpr ⟨hname, _, rfl, hends⟩
    have htag : OpensTag k c name c₃ := by
      refine ⟨h₁.trans h₃, hname, hends, ?_⟩
      rcases hk with rfl | rfl
      · rw [BeginsElement, opensMarkup, hq, he]
        simp
      · exact .inr (by rw [hq]; rfl)
    exact .selfClosing (.nil k c) htag (reads_blanks (.nil _ _) hb₃ h₄) hclose
  | cons x b₂ =>
    obtain ⟨c₅, h₅, h₆⟩ := Cursor.Over.split (a := ['/']) (b := ['>']) hclose
    have hlt : IsPlain k c.before '<' c₁.after := by
      rw [h₂.after]
      exact isPlain_lt hk (hb₂ x List.mem_cons_self)
    have hslash : IsPlain k c₄.before '/' c₅.after := by
      rw [h₆.after]
      rcases hk with rfl | rfl
      · exact ⟨by decide, fun _ => ⟨by simp, by simp⟩, fun h => absurd h (by decide)⟩
      · exact ⟨by decide, fun h => absurd h (by decide)⟩
    have hgt : IsPlain k c₅.before '>' d.after := by
      rcases hk with rfl | rfl
      · exact ⟨by decide, fun h => absurd h (by decide), fun h => absurd h (by decide)⟩
      · exact ⟨by decide, fun h => absurd h (by decide)⟩
    have hword := reads_inert (reads_blanks ((Reads.nil k c).plain h₁ hlt) hb₂ h₂)
      (fun x hx => isInert_of_isTagNameChar (hname.isTagNameChar x hx)) h₃
    exact ((reads_blanks hword hb₃ h₄).plain h₅ hslash).plain h₆ hgt

/-- A mount call is read in script and in markup. -/
theorem reads_mount (hk : k = .script ∨ k = .markup) (hw : IsMount w) (ho : c.Over w d) :
    Reads k c d := by
  obtain ⟨b₁, b₂, b₃, b₄, hb, rfl⟩ := hw
  simp only [List.forall_mem_append] at hb
  obtain ⟨hb₁, hb₂, hb₃, hb₄⟩ := hb
  have hsplit : "render(".toList ++ (b₁ ++ (['<'] ++ (b₂ ++ ("GeneratedLesson".toList ++ (b₃ ++
      ("/>".toList ++ (b₄ ++ [')']))))))) = "render".toList ++ (['('] ++ (b₁ ++ ((['<'] ++ (b₂ ++
        ("GeneratedLesson".toList ++ (b₃ ++ "/>".toList)))) ++ (b₄ ++ [')'])))) := by simp
  rw [hsplit] at ho
  obtain ⟨c₁, h₁, ho⟩ := ho.split
  obtain ⟨c₂, h₂, ho⟩ := ho.split
  obtain ⟨c₃, h₃, ho⟩ := ho.split
  obtain ⟨c₄, h₄, ho⟩ := ho.split
  obtain ⟨c₅, h₅, hclose⟩ := ho.split
  have hname : IsTagName "GeneratedLesson".toList :=
    ⟨'G', "eneratedLesson".toList, rfl, by decide, by decide⟩
  have hbefore : expressionCanFollow c₃.before = true := by
    rw [h₃.before, h₂.before]
    exact expressionCanFollow_blanks hb₁ _
  have hword : Reads k c c₁ := reads_inert (.nil k c) (by decide) h₁
  have hinner : Reads k c₂ c₅ := reads_blanks ((reads_blanks (.nil k c₂) hb₁ h₃).trans
    (reads_selfClosing hk hbefore hname hb₂ hb₃ h₄)) hb₄ h₅
  rcases hk with rfl | rfl
  · exact .bracket hword (.inl ⟨rfl, rfl⟩) h₂ hinner hclose
  · have hparen {x : Char} (hx : x = '(' ∨ x = ')') (before after : Text) :
        IsPlain .markup before x after := by
      rcases hx with rfl | rfl
      · exact ⟨by decide, nofun⟩
      · exact ⟨by decide, nofun⟩
    exact ((hword.plain h₂ (hparen (.inl rfl) _ _)).trans hinner).plain hclose
      (hparen (.inr rfl) _ _)

/-- The text is a mount call, with blanks and a semicolon behind it. -/
def IsLastMount (t : Text) : Prop :=
  ∃ w b s r : Text, t = w ++ (b ++ (s ++ r)) ∧ IsMount w ∧ (∀ x ∈ b, isBlank x = true) ∧
    (s = [] ∨ s = [';']) ∧ ∀ x ∈ r, isBlank x = true

namespace IsLastMount

variable {t : Text} {p : Nat} {s : ScanState}

theorem exists_reads (h : IsLastMount t) (hk : k = .script ∨ k = .markup) (hc : c.after = t) :
    ∃ d, Reads k c d ∧ d.after = [] := by
  obtain ⟨w, b, s, r, rfl, hw, hb, hs, hr⟩ := h
  have ho : c.Over (w ++ (b ++ (s ++ r))) (c.skip (w ++ (b ++ (s ++ r))).length) :=
    Cursor.over_skip (r := []) (by rw [hc, List.append_nil])
  have hend : (c.skip (w ++ (b ++ (s ++ r))).length).after = [] := by
    rw [Cursor.after_skip, hc, List.drop_length]
  obtain ⟨c₁, h₁, ho⟩ := ho.split
  obtain ⟨c₂, h₂, ho⟩ := ho.split
  obtain ⟨c₃, h₃, h₄⟩ := ho.split
  have hsemicolon : ∀ x ∈ s, isInert x = true := by
    rcases hs with rfl | rfl
    · exact List.forall_mem_nil _
    · decide
  exact ⟨_, reads_blanks (reads_inert (reads_blanks (reads_mount hk hw h₁) hb h₂) hsemicolon h₃)
    hr h₄, hend⟩

theorem not_mem {x : Char} (h : IsLastMount t) (hb : isBlank x = false)
    (hx : x ∉ "render(<GeneratedLesson/>);".toList) : x ∉ t := by
  obtain ⟨w, b, s, r, rfl, hw, hb₁, hs, hr⟩ := h
  have blank {u : Text} (hu : ∀ z ∈ u, isBlank z = true) : x ∉ u := fun hm => by
    simp [hu x hm] at hb
  have hword : x ∉ "render(<GeneratedLesson/>)".toList := fun hm =>
    hx (List.mem_append_left [';'] hm)
  have hsign : x ∉ s := by
    rcases hs with rfl | rfl
    · exact List.not_mem_nil
    · exact fun hm => hx (List.mem_append_right "render(<GeneratedLesson/>)".toList hm)
  simp only [List.mem_append, not_or]
  exact ⟨hw.not_mem hb hword, blank hb₁, hsign, blank hr⟩

theorem beginsWithCall (h : IsLastMount t) : BeginsWithCall t := by
  obtain ⟨w, b, s, r, rfl, ⟨b₁, b₂, b₃, b₄, hb, rfl⟩, -⟩ := h
  refine ⟨"render".toList, b₁, '<', _, by simp; rfl, by decide, by decide,
    (List.forall_mem_append.mp hb).1, .inl rfl⟩

/-- A mount call that ends a balanced text is not read inside of a string. -/
theorem mode_ne_string (h : (Scan.ofText t).isBalanced = true) (hs : ReadAt t p s)
    (hm : IsLastMount (t.drop p)) (hp : p < t.length) : s.stack.mode ≠ .string := by
  intro hmode
  have hu : Understood (.ofText t) s :=
    Understood.walks (.clear Opened.nil.parsed) (inWhole_start t) hs.walks
  obtain ⟨hissues, e, hse, -, hend, -⟩ := clean_of_isBalanced h hs.walks
  obtain ⟨g, hg, hlen⟩ := hs.exists_append hp
  obtain ⟨x, rest, hx, -, hover⟩ := hs.exists_move hp
  have stays (hq : ∀ y ∈ s.cursor.after, s.stack.quote ≠ [y]) : False := by
    have := Walks.string hse hs.inWhole hmode hq
    rcases hend with hend | hend <;> simp [this] at hend
  cases hu with
  | @string fs c d q body start hparsed hq hbody ho =>
    have hquote : q ∉ t.drop p ∧ q ≠ '\\' := by
      have hq' : q = '\x22' ∨ q = '\x27' ∨ q = '\x60' := by
        cases hk : contextOf fs <;> rw [hk] at hq
        · exact hq
        · exact hq.imp_right .inl
        · exact hq.elim
      rcases hq' with rfl | rfl | rfl
      · exact ⟨hm.not_mem (by decide) (by decide), by decide⟩
      · exact ⟨hm.not_mem (by decide) (by decide), by decide⟩
      · exact ⟨hm.not_mem (by decide) (by decide), by decide⟩
    refine stays fun y hy he => ?_
    obtain rfl : q = y := (List.cons.inj he).1
    change d.after = g ++ t.drop p at hg
    change d.after = x :: rest at hx
    change q ∈ d.after at hy
    change p < d.pos + (Move.inString [q] x).length at hover
    change d.pos + g.length = p at hlen
    -- Before the call there can only be the backslash that takes its first character.
    rw [hg, List.mem_append] at hy
    have hmem : q ∈ g := hy.resolve_right hquote.1
    have hpos := List.length_pos_of_mem hmem
    unfold Move.inString at hover
    split at hover
    · next hslash =>
      subst hslash
      simp only [Move.length] at hover
      obtain ⟨y, rfl⟩ := List.length_eq_one_iff.mp (show g.length = 1 by omega)
      obtain rfl : '\\' = y := (List.cons.inj (hx.symm.trans hg)).1
      exact hquote.2 (List.mem_singleton.mp hmem)
    · split at hover
      · simp only [Move.length] at hover
        omega
      · simp only [Move.length] at hover
        omega
  | cutString hd => simp [inside, hd] at hx
  | faulty hne => exact hne hissues
  | _ => cases hmode

/-- A mount call that ends a balanced text is read as script under no open frame, or in a comment
that ends with the line. -/
theorem of_readAt (h : (Scan.ofText t).isBalanced = true) (hs : ReadAt t p s)
    (hm : IsLastMount (t.drop p)) :
    s.cursor.pos = p ∧
      (s.stack.mode = .normal ∧ s.stack.frames = [] ∨ s.stack.mode = .lineComment) := by
  obtain ⟨hpos, hattrs⟩ := hs.of_call h hm.beginsWithCall
  have hp : p < t.length := by
    by_contra hge
    obtain ⟨a, b, z, r, hdrop, -⟩ := hm.beginsWithCall
    simp [List.drop_eq_nil_of_le (Nat.le_of_not_lt hge)] at hdrop
  have hmode := mode_ne_string h hs hm hp
  have hat := hpos.resolve_right hmode
  refine ⟨hat, ?_⟩
  have hafter := after_eq_drop hs.walks
  rw [hat] at hafter
  have hu : Understood (.ofText t) s :=
    Understood.walks (.clear Opened.nil.parsed) (inWhole_start t) hs.walks
  obtain ⟨hissues, e, hse, -, hend, -⟩ := clean_of_isBalanced h hs.walks
  cases hu with
  | @clear fs c hparsed =>
    have hk : contextOf fs = .script ∨ contextOf fs = .markup := by
      cases hk : contextOf fs with
      | script => exact .inl rfl
      | attrs => exact absurd ⟨rfl, hk⟩ hattrs
      | markup => exact .inr rfl
    obtain ⟨d, hreads, hd⟩ := hm.exists_reads hk hafter
    have hsettles := settles_of_reads hreads fs rfl hs.inWhole.stop
    exact .inl ⟨rfl, frames_eq_nil_of_settles h hs.walks hsettles hd⟩
  | string => exact absurd rfl hmode
  | cutString => exact absurd rfl hmode
  | lineComment => exact .inr rfl
  | blockComment =>
    have hstar := hm.not_mem (x := '*') (by decide) (by decide)
    have := Walks.blockComment hse hs.inWhole rfl (hafter ▸ hstar)
    rcases hend with hend | hend <;> simp [this] at hend
  | faulty hne => exact absurd hissues hne

end IsLastMount

end

/-! ### What the contract finds -/

namespace Contract

variable {t : Text} {m : Match}

/-- What is found of a declaration of the entry point. -/
theorem entry_of_mem_ends (h : m.last ∈ Settings.standard.entryDeclaration.ends ⟨m.first, []⟩) :
    ∃ g b, m.text = "function".toList ++ (g ++ ("GeneratedLesson".toList ++ (b ++
      ('(' :: (m.group 1 ++ [')']))))) ∧ (∀ x ∈ g, isBlank x = true) ∧
      (∀ x ∈ b, isBlank x = true) ∧ ')' ∉ m.group 1 := by
  obtain ⟨u₀, h₀, h⟩ := mem_ends_seq.mp h
  obtain ⟨rfl, -⟩ := mem_ends_wordEdge h₀
  obtain ⟨u₁, h₁, h⟩ := mem_ends_seq.mp h
  obtain ⟨u₂, h₂, h⟩ := mem_ends_seq.mp h
  obtain ⟨u₃, h₃, h⟩ := mem_ends_seq.mp h
  obtain ⟨u₄, h₄, h⟩ := mem_ends_seq.mp h
  obtain ⟨u₅, h₅, h⟩ := mem_ends_seq.mp h
  obtain ⟨u₆, h₆, h⟩ := mem_ends_seq.mp h
  obtain ⟨u, hu, rfl⟩ := mem_ends_group h₆
  obtain ⟨v, hv, h₂⟩ := mem_ends_seq.mp h₂
  obtain ⟨x, hx, og, -⟩ := mem_ends_one hv
  obtain ⟨g, hg, og', -⟩ := mem_ends_run h₂
  obtain ⟨b, hb, ob, -⟩ := mem_ends_run h₄
  obtain ⟨q, hq, oq, -⟩ := mem_ends_run hu
  obtain ⟨oend, hcaptures⟩ := mem_ends_char h
  have hgroup : m.group 1 = q := by
    rw [Match.group, Progress.group?, hcaptures, ← oq.between]
    rfl
  have hover := (mem_ends_text h₁).1.trans ((og.trans og').trans ((mem_ends_text h₃).1.trans
    (ob.trans ((mem_ends_char h₅).1.trans (oq.trans oend)))))
  refine ⟨[x] ++ g, b, hover.between.trans ?_, ?_, hb, fun hmem => ?_⟩
  · rw [hgroup]
    rfl
  · exact List.forall_mem_cons.mpr ⟨hx, hg⟩
  · have := hq _ (hgroup ▸ hmem)
    simp at this

/-- The declaration of the entry point that fulfils the contract is the only one. -/
theorem exists_findAll_of_checkEntryPoint (h : checkEntryPoint .standard t = []) :
    ∃ m, Settings.standard.entryDeclaration.findAll t = [m] ∧
      ∀ x ∈ m.group 1, isBlank x = true := by
  simp only [checkEntryPoint] at h
  split at h
  · cases h
  next ms hne =>
  obtain ⟨hparams, hfew⟩ := List.append_eq_nil_iff.mp h
  split at hparams
  · next hall =>
    split at hfew
    · cases hfew
    next hlength =>
    obtain ⟨m, hm⟩ := List.length_eq_one_iff.mp
      (Nat.le_antisymm (Nat.not_lt.mp hlength) (List.length_pos_iff.mpr hne))
    refine ⟨m, hm, List.all_eq_true.mp (List.all_eq_true.mp hall m ?_)⟩
    rw [hm]
    exact List.mem_cons_self
  · cases hparams

/-- The text from the declaration of the entry point on, if it has no parameters. -/
theorem beginsWithCall_of_entry (h : Settings.standard.entryDeclaration.Finds (.ofText t) m)
    (hp : ∀ x ∈ m.group 1, isBlank x = true) : BeginsWithCall (t.drop m.start) := by
  obtain ⟨p, ht, hstart, -⟩ := h.split
  obtain ⟨g, b, htext, hg, hb, -⟩ := entry_of_mem_ends h.last
  have hdrop : t.drop m.start = m.text ++ m.last.cursor.after := by
    rw [hstart, ht, List.drop_left]
  have blanks {u : Text} (hu : ∀ x ∈ u, isBlank x = true) :
      ∀ x ∈ u, isInert x = true ∧ x ≠ '*' := fun x hx => by
    refine ⟨isInert_of_isBlank (hu x hx), ?_⟩
    rintro rfl
    exact absurd (hu '*' hx) (by decide)
  refine ⟨"function".toList ++ (g ++ ("GeneratedLesson".toList ++ b)), m.group 1, ')',
    m.last.cursor.after, by rw [hdrop, htext]; simp, by simp, ?_, hp, .inr rfl⟩
  simp only [List.forall_mem_append]
  exact ⟨by decide, blanks hg, by decide, blanks hb⟩

/-- In a text that fulfils the contract the mount call is read from the place where it begins, as
script under no open frame or in a comment that ends with the line. The declaration of the entry
point is read from the place where it begins or inside of a string, and never among the attributes
of a tag. -/
theorem read_of_defects (h : defects .standard t = []) :
    (∃ m s, Settings.standard.mountCall.findAll t = [m] ∧ ReadAt t m.start s ∧
      s.cursor.pos = m.start ∧
      (s.stack.mode = .normal ∧ s.stack.frames = [] ∨ s.stack.mode = .lineComment)) ∧
    ∃ e s, Settings.standard.entryDeclaration.findAll t = [e] ∧ ReadAt t e.start s ∧
      (s.cursor.pos = e.start ∨ s.stack.mode = .string) ∧
      ¬ (s.stack.mode = .normal ∧ contextOf s.stack.frames = .attrs) := by
  simp only [defects, List.append_eq_nil_iff] at h
  obtain ⟨⟨⟨⟨⟨hentry, hmount⟩, -⟩, -⟩, -⟩, hbalance⟩ := h
  have hbalanced : (Scan.ofText t).isBalanced = true := by
    rw [Scan.isBalanced, List.isEmpty_iff]
    exact List.map_eq_nil_iff.mp hbalance
  constructor
  · obtain ⟨m, hm, hblank⟩ := exists_findAll_of_checkMount hmount
    have hfinds := finds_of_mem_findAll (t := t) (hm ▸ List.mem_cons_self)
    obtain ⟨p, w, b, s, ht, hw, -, hstart, hb, hs⟩ := mount_of_finds hfinds
    have hlast : IsLastMount (t.drop m.start) := by
      refine ⟨w, b, s, m.last.cursor.after, ?_, hw, hb, hs, hblank⟩
      have hp : t.drop p.length = w ++ (b ++ (s ++ m.last.cursor.after)) := by
        conv_lhs => rw [ht]
        rw [List.drop_left]
      rw [hstart, hp]
    obtain ⟨s, hs⟩ := exists_readAt t m.start
    exact ⟨m, s, hm, hs, hlast.of_readAt hbalanced hs⟩
  · obtain ⟨e, he, hparams⟩ := exists_findAll_of_checkEntryPoint hentry
    have hfinds := finds_of_mem_findAll (t := t) (he ▸ List.mem_cons_self)
    obtain ⟨s, hs⟩ := exists_readAt t e.start
    exact ⟨e, s, he, hs, hs.of_call hbalanced (beginsWithCall_of_entry hfinds hparams)⟩

/-- A component whose mount call is a comment. -/
def commentedMount : Text :=
  "function GeneratedLesson()\x7breturn <p/>\x7d//render(<GeneratedLesson/>)".toList

theorem read_of_defects_commentedMount :
    defects .standard commentedMount = [] ∧
      (∃ m s, Settings.standard.mountCall.findAll commentedMount = [m] ∧
        ReadAt commentedMount m.start s ∧ s.cursor.pos = m.start ∧
        (s.stack.mode = .normal ∧ s.stack.frames = [] ∨ s.stack.mode = .lineComment)) ∧
      ∃ e s, Settings.standard.entryDeclaration.findAll commentedMount = [e] ∧
        ReadAt commentedMount e.start s ∧ (s.cursor.pos = e.start ∨ s.stack.mode = .string) ∧
        ¬ (s.stack.mode = .normal ∧ contextOf s.stack.frames = .attrs) :=
  have h : defects .standard commentedMount = [] := by decide +kernel
  ⟨h, read_of_defects h⟩

end Contract

end SnippetGate
