import SnippetGate.Proofs.Contract.Mount
import SnippetGate.Proofs.Pattern.Fits
import SnippetGate.Proofs.Text.Basic
import SnippetGate.Repair.Catalogue

/-!
# Repairs that find nothing

Most repairs look for what the contract forbids. So they find nothing in a text that fulfils it, nor
in that text with blanks around it.
-/

namespace SnippetGate

open Pattern

namespace Repair

variable {r : Repair} {rs : List Repair} {p : Progress} {c l t u v : Text}

/-! ### Repairs without an effect -/

/-- The repair finds nothing to mend in the text. -/
def IsIdle (r : Repair) (t : Text) : Prop := r.propose t = .ok none

theorem attempt_of_isIdle (h : r.IsIdle p.text) : attempt p r = p := by
  rw [attempt, IsIdle.eq_def] at *
  simp only [h]

theorem foldl_attempt_of_isIdle (h : ∀ r ∈ rs, r.IsIdle p.text) : rs.foldl attempt p = p := by
  induction rs with
  | nil => rfl
  | cons r rs ih =>
    obtain ⟨hr, hrs⟩ := List.forall_mem_cons.mp h
    rw [List.foldl_cons, attempt_of_isIdle hr, ih hrs]

theorem isIdle_of_detect (h : r.detect t = .ok none) : r.IsIdle t := by
  rw [IsIdle, propose, h]

theorem isIdle_sure {name : String} {tier : Tier} {detect : Text → Option Text}
    {action : Text → Text} (h : detect t = none) : (sure name tier detect action).IsIdle t :=
  isIdle_of_detect (congrArg Except.ok h)

theorem isIdle_ofSignature? {s : Signature} (h : s.detect t = none) :
    ∀ r ∈ ofSignature? s, r.IsIdle t := by
  intro r hr
  obtain ⟨action, -, rfl⟩ := Option.map_eq_some_iff.mp hr
  exact isIdle_of_detect (congrArg Except.ok h)

end Repair

/-! ### What blanks around a text do not bring about -/

section

variable {l c r : Text} {p : Pattern}

theorem holds_blanks {part : Text} (hl : ∀ x ∈ l, isBlank x = true)
    (hr : ∀ x ∈ r, isBlank x = true) (hfirst : HasInkFirst part) (hlast : HasInkLast part) :
    (l ++ (c ++ r)).holds part = c.holds part := by
  rw [Bool.eq_iff_iff, Text.holds_iff_infix, Text.holds_iff_infix]
  constructor
  · rintro ⟨u, v, he⟩
    obtain ⟨a, b, rfl, -, -⟩ := exists_of_blanks_append hl hr
      (he.symm.trans (List.append_assoc u part v)) hfirst hlast
    exact ⟨a, b, List.append_assoc a part b⟩
  · exact fun h => h.trans ⟨l, r, List.append_assoc l c r⟩

theorem findAll_eq_nil {t : Text} (h : p.occursIn t = false) : p.findAll t = [] := by
  have hnone : p.searchFrom? (.ofText t) = none := search?_eq_none_iff.mpr h
  rw [findAll, findUpTo, hnone]

end

namespace Signature

variable {l c r bad : Text} {s : Signature} {p : Pattern}

theorem isSteady_classWord : (classWord bad).IsSteady := by
  simp [classWord, few]

theorem startsInInk_classWord : (classWord bad).StartsInInk :=
  ((startsInInk_text rfl).seq.group 1).seq

theorem endsInInk_classWord (h : bad.getLast?.any (fun x => !isBlank x) = true) :
    (classWord bad).EndsInInk := .inl (.inl (.inr ⟨rfl, endsInInk_text h⟩))

theorem isSteady_doubledEvent : doubledEvent.IsSteady := by
  simp [doubledEvent]

theorem isSteady_setAnswerCall : setAnswerCall.IsSteady := by
  refine ⟨fun x hx => ?_, isSteady_text _, trivial, trivial⟩
  simp [not_isNameChar_of_isBlank hx, beq_eq_false_of_isBlank hx (x := '.') (by decide)]

theorem isSteady_declaredSetter (name : String) : (declaredSetter name).IsSteady := by
  simp [declaredSetter]

theorem isSteady_emptyElse : emptyElse.IsSteady := by
  simp [emptyElse]

/-- An arrow function with an empty body, behind the indentation. -/
theorem isSteady_emptyArrow : (all [declarator, gap, .group 2 Pattern.name, blanks, char '=',
    blanks, opt (.seq (word "async") blanks), flatParameters, blanks,
    opt (all [char ':', blanks,
      few1 fun c => c != '=' && c != ';' && c != '{' && c != '}']),
    word "=>", blanks, emptyBlock]).IsSteady := by
  simp [declarator, any, flatParameters, emptyBlock, few1]

theorem isSteady_emptyFunction : (all [opt (.seq (word "async") gap), word "function", gap,
    .group 2 Pattern.name, blanks, flatParameters, blanks, emptyBlock]).IsSteady := by
  simp [flatParameters, emptyBlock]

theorem startsInInk_declarator : declarator.StartsInInk :=
  .alt (startsInInk_text rfl) (.alt (startsInInk_text rfl) (startsInInk_text rfl))

theorem endsInInk_emptyBlock : emptyBlock.EndsInInk := endsInInk_all ⟨_, rfl, endsInInk_char rfl⟩

theorem isSteady_drawingStart : drawingStart.IsSteady := by
  simp [drawingStart, drawingName, any]

theorem endsInInk_drawingName : drawingName.EndsInInk := by
  have word (x : Text) (h : x.getLast?.any (fun y => !isBlank y) = true) : (text x).EndsInInk :=
    endsInInk_text h
  exact ⟨word _ rfl, word _ rfl, word _ rfl, word _ rfl, word _ rfl, word _ rfl, word _ rfl⟩

theorem detectPiece_eq_none_iff {t : Text} : detectPiece p t = none ↔ p.occursIn t = false := by
  rw [detectPiece, Option.map_eq_none_iff, search?_eq_none_iff]

theorem detect_undeclaredSetAnswer_blanks (hl : ∀ x ∈ l, isBlank x = true)
    (hr : ∀ x ∈ r, isBlank x = true) (h : undeclaredSetAnswer.detect c = none) :
    undeclaredSetAnswer.detect (l ++ (c ++ r)) = none := by
  have hdetect (t : Text) : undeclaredSetAnswer.detect t =
      if setAnswerCall.occursIn t && !(declaredSetter "setAnswer").occursIn t then
        some "setAnswer(".toList
      else none := rfl
  have hcall := occursIn_blanks (c := c) isSteady_setAnswerCall
    (.seq_of_opens rfl (startsInInk_text rfl).seq)
    (endsInInk_all ⟨_, rfl, endsInInk_char rfl⟩) hl hr
  have hsetter := occursIn_blanks (c := c) (isSteady_declaredSetter "setAnswer")
    (.seq_of_opens rfl (startsInInk_text rfl).seq)
    (endsInInk_all ⟨_, rfl, endsInInk_char rfl⟩) hl hr
  rw [hdetect] at h ⊢
  rw [hcall, hsetter]
  exact h

theorem detect_orphanDrawing_blanks (hl : ∀ x ∈ l, isBlank x = true)
    (hr : ∀ x ∈ r, isBlank x = true) (h : orphanDrawing.detect c = none) :
    orphanDrawing.detect (l ++ (c ++ r)) = none := by
  have hdetect (t : Text) : orphanDrawing.detect t =
      if t.holds "<svg".toList then none else detectPiece drawingStart t := rfl
  have hsvg : (l ++ (c ++ r)).holds "<svg".toList = c.holds "<svg".toList :=
    holds_blanks hl hr ⟨'<', rfl, rfl⟩ ⟨'g', rfl, rfl⟩
  have hdrawing := occursIn_blanks (c := c) isSteady_drawingStart (startsInInk_char rfl).seq
    (.inl (.inr ⟨rfl, endsInInk_drawingName⟩)) hl hr
  rw [hdetect] at h ⊢
  rw [hsvg]
  cases hs : c.holds "<svg".toList with
  | true => rfl
  | false =>
    rw [hs, if_neg Bool.false_ne_true, detectPiece_eq_none_iff] at h
    rw [if_neg Bool.false_ne_true, detectPiece_eq_none_iff, hdrawing]
    exact h

/-- A typing error, or another signature that can be mended, is not brought about by blanks. -/
theorem detect_blanks (hs : s ∈ catalogue) (ha : s.action?.isSome = true)
    (hl : ∀ x ∈ l, isBlank x = true) (hr : ∀ x ∈ r, isBlank x = true) (h : s.detect c = none) :
    s.detect (l ++ (c ++ r)) = none := by
  have piece {p : Pattern} (hp : p.IsSteady) (hfirst : p.StartsInInk) (hlast : p.EndsInInk)
      (h : detectPiece p c = none) : detectPiece p (l ++ (c ++ r)) = none := by
    rw [detectPiece_eq_none_iff] at h ⊢
    rwa [occursIn_blanks hp hfirst hlast hl hr]
  have typo {before : Text} (hfirst : HasInkFirst before) (hlast : HasInkLast before)
      (h : detectText before c = none) : detectText before (l ++ (c ++ r)) = none := by
    rwa [detectText, holds_blanks hl hr hfirst hlast]
  simp only [catalogue, List.mem_cons, List.not_mem_nil, or_false] at hs
  rcases hs with rfl | rfl | rfl | rfl | rfl | rfl | rfl | rfl | rfl | rfl | rfl
  · exact typo ⟨'<', rfl, rfl⟩ ⟨'=', rfl, rfl⟩ h
  · exact typo ⟨'<', rfl, rfl⟩ ⟨'=', rfl, rfl⟩ h
  · exact piece isSteady_classWord startsInInk_classWord (endsInInk_classWord rfl) h
  · exact piece isSteady_classWord startsInInk_classWord (endsInInk_classWord rfl) h
  · exact piece isSteady_doubledEvent (.seq_of_opens rfl (startsInInk_text rfl).seq)
      (endsInInk_all ⟨_, rfl, .inl (endsInInk_char rfl)⟩) h
  · exact detect_undeclaredSetAnswer_blanks hl hr h
  · exact piece isSteady_emptyElse (startsInInk_char rfl).seq
      (endsInInk_all ⟨_, rfl, endsInInk_text rfl⟩) h
  · cases ha
  · cases ha
  · cases ha
  · exact detect_orphanDrawing_blanks hl hr h

end Signature

/-! ### What the contract forbids -/

namespace Contract

variable {l c r u q v : Text} {w : String} {x : Char}

/-- A word that begins a line behind blanks, with a blank after it. -/
theorem occursIn_leadingWord (hl : ∀ x ∈ l, isBlank x = true) (hr : ∀ x ∈ r, isBlank x = true)
    (hc : ∀ x ∈ c.head?, isBlank x = false)
    (he : l ++ (c ++ r) = u ++ (q ++ (w.toList ++ x :: v))) (hu : BeginsLine u)
    (hq : ∀ x ∈ q, isBlank x = true) (hx : isBlank x = true) (hfirst : HasInkFirst w.toList)
    (hlast : w.toList.getLast?.any isWord = true) : (leadingWord w).occursIn c = true := by
  obtain ⟨y, hy, hword⟩ := (Option.any_eq_true _ _).mp hlast
  have hink : isBlank y = false := by
    by_contra hb
    rw [not_isWord_of_isBlank (by simpa using hb)] at hword
    cases hword
  obtain ⟨a, k, b, rfl, ha, hk, -, hv⟩ :=
    exists_line_of_blanks_append hl hr hc he hu hq hfirst ⟨y, hy, hink⟩
  have hafter : b.head?.any isWord = false := by
    refine any_eq_false_iff.mpr fun z hz => ?_
    obtain ⟨b, rfl⟩ := List.head?_eq_some_iff.mp (Option.mem_def.mp hz)
    obtain ⟨rfl, -⟩ := List.cons.inj hv
    exact not_isWord_of_isBlank hx
  have hbefore : (a ++ k ++ w.toList).getLast?.any isWord = true := by
    rw [List.getLast?_append, Option.mem_def.mp hy]
    exact hword
  have hexplicit : (leadingWord w).isExplicit = true := by
    simp [leadingWord, all, word, isExplicit, isExplicit_text, blanks, many]
  refine (occursIn_iff hexplicit).mpr ⟨a, k ++ w.toList, b, by simp, [], _, rfl, ⟨rfl, ha⟩, k, _,
    rfl, fun z hz => hq z (hk z hz), w.toList, [], (List.append_nil _).symm,
    fits_text.mpr rfl, rfl, ?_⟩
  rw [List.append_nil, hbefore, hafter]
  exact Bool.noConfusion

/-- No line of a text begins with a word behind blanks if none does without the blanks around the
text. -/
theorem occursIn_leadingLine (hl : ∀ x ∈ l, isBlank x = true) (hr : ∀ x ∈ r, isBlank x = true)
    (hc : ∀ x ∈ c.head?, isBlank x = false) (hfirst : HasInkFirst w.toList)
    (hlast : w.toList.getLast?.any isWord = true) (h : (leadingWord w).occursIn c = false)
    {a b : Pattern} (ha : ∀ u q v, a.Fits u q v → ∀ x ∈ q, isBlank x = true)
    (hab : (seq a b).isExplicit = true) :
    (seq .lineStart (seq a (seq (word w) (seq gap b)))).occursIn (l ++ (c ++ r)) = false := by
  by_contra hoccurs
  rw [isExplicit, Bool.and_eq_true] at hab
  have hexplicit : (seq .lineStart (seq a (seq (word w) (seq gap b)))).isExplicit = true := by
    simp [word, gap, many1, isExplicit, isExplicit_text, hab]
  rw [Bool.not_eq_false, occursIn_iff hexplicit] at hoccurs
  obtain ⟨u, _, v, he, _, _, rfl, ⟨rfl, hu⟩, q, _, rfl, hq, _, _, rfl, hw, _, k, rfl,
    ⟨_, k', rfl, ⟨x, rfl, hx⟩, -⟩, -⟩ := hoccurs
  obtain rfl := fits_text.mp hw
  have hshape : l ++ (c ++ r) = u ++ (q ++ (w.toList ++ x :: (k' ++ (k ++ v)))) := by
    rw [he]
    simp
  have := occursIn_leadingWord hl hr hc hshape hu (ha _ _ _ hq) hx hfirst hlast
  rw [h] at this
  cases this

end Contract

namespace Repair

variable {l c r : Text}

/-! ### Repairs of what fulfils the contract -/

section

variable (hl : ∀ x ∈ l, isBlank x = true) (hr : ∀ x ∈ r, isBlank x = true)

include hl hr

theorem isIdle_stripModule (hc : ∀ x ∈ c.head?, isBlank x = false)
    (h : Contract.checkModule c = []) : (stripModule .standard).IsIdle (l ++ (c ++ r)) := by
  have himport : (Contract.leadingWord "import").occursIn c = false := by
    by_contra hw
    simp [Contract.checkModule, hw] at h
  have hexport : (Contract.leadingWord "export").occursIn c = false := by
    by_contra hw
    simp [Contract.checkModule, hw] at h
  have hindent : ∀ u q v, indent.Fits u q v → ∀ x ∈ q, isBlank x = true :=
    fun _ _ _ hq x hx => isBlank_of_isIndent (hq x hx)
  refine isIdle_sure ?_
  rw [moduleFragment?, List.findSome?_eq_none_iff]
  intro p hp
  rw [Option.map_eq_none_iff, search?_eq_none_iff]
  simp only [List.mem_cons, List.not_mem_nil, or_false] at hp
  rcases hp with rfl | rfl | rfl
  · exact Contract.occursIn_leadingLine hl hr hc ⟨'i', rfl, rfl⟩ rfl himport hindent
      (by simp [isExplicit, isExplicit_text, indent, many, all, word, opt, few, gap, many1, char,
        restOfLine])
  · exact Contract.occursIn_leadingLine (a := .group 1 indent) hl hr hc ⟨'e', rfl, rfl⟩ rfl hexport
      hindent rfl
  · exact Contract.occursIn_leadingLine hl hr hc ⟨'e', rfl, rfl⟩ rfl hexport hindent rfl

theorem occursIn_entryDeclaration_blanks :
    Settings.standard.entryDeclaration.occursIn (l ++ (c ++ r)) =
      Settings.standard.entryDeclaration.occursIn c := by
  refine occursIn_blanks ?_ (.seq_of_opens rfl (startsInInk_text rfl).seq)
    (endsInInk_all ⟨_, rfl, endsInInk_char rfl⟩) hl hr
  simp [Settings.entryDeclaration]

theorem isIdle_adoptEntryPoint (h : Contract.checkEntryPoint .standard c = []) :
    (adoptEntryPoint .standard).IsIdle (l ++ (c ++ r)) := by
  have hoccurs : Settings.standard.entryDeclaration.occursIn c = true := by
    by_contra hnone
    rw [Bool.not_eq_true] at hnone
    rw [Contract.checkEntryPoint, findAll_eq_nil hnone] at h
    exact List.cons_ne_nil _ _ h
  rw [← occursIn_entryDeclaration_blanks hl hr] at hoccurs
  have halias : alias? .standard (l ++ (c ++ r)) = none := by rw [alias?, if_pos hoccurs]
  exact isIdle_of_detect (congrArg Except.ok halias)

theorem isIdle_fillHandlers (hc : ∀ x ∈ c.head?, isBlank x = false)
    (h : Signature.emptyHandlerBody.detect c = none) : fillHandlers.IsIdle (l ++ (c ++ r)) := by
  have hdetect : Signature.emptyHandlerBody.detect c =
      Signature.emptyHandlers.findSome? fun p => (p.search? c).map (·.group 2) := rfl
  rw [hdetect, List.findSome?_eq_none_iff] at h
  have hnone (p) (hp : p ∈ Signature.emptyHandlers) : p.findAll (l ++ (c ++ r)) = [] := by
    have hoccurs := h p hp
    rw [Option.map_eq_none_iff, search?_eq_none_iff] at hoccurs
    refine findAll_eq_nil ?_
    rw [← Bool.not_eq_true] at hoccurs ⊢
    refine mt ?_ hoccurs
    simp only [Signature.emptyHandlers, List.mem_cons, List.not_mem_nil, or_false] at hp
    rcases hp with rfl | rfl
    · exact occursIn_line_of_blanks Signature.isSteady_emptyArrow
        Signature.startsInInk_declarator.seq
        (endsInInk_all ⟨_, rfl, Signature.endsInInk_emptyBlock⟩) hl hr hc
    · exact occursIn_line_of_blanks Signature.isSteady_emptyFunction
        (.seq_of_opens ⟨(startsInInk_text rfl).seq.opens, trivial⟩ (startsInInk_text rfl).seq)
        (endsInInk_all ⟨_, rfl, Signature.endsInInk_emptyBlock⟩) hl hr hc
  have hnames : emptyHandlerNames (l ++ (c ++ r)) = [] := by
    rw [emptyHandlerNames, List.flatMap_eq_nil_iff]
    intro p hp
    rw [hnone p hp, List.map_nil]
  refine isIdle_sure ?_
  rw [fillable?, hnames]
  rfl

theorem isIdle_stripTail (h : Contract.checkMount .standard c = []) :
    (stripTail .standard).IsIdle (l ++ (c ++ r)) := by
  obtain ⟨m, hm, hafter⟩ := exists_findAll_of_checkMount h
  have hfinds := finds_of_mem_findAll (m := m) (by rw [hm]; exact List.mem_singleton_self m)
  obtain ⟨p, w, b, s, hc, hw, hp, -, hb, hs⟩ := mount_of_finds hfinds
  have hext : l ++ (c ++ r) = (l ++ p) ++ (w ++ (b ++ (s ++ (m.last.cursor.after ++ r)))) := by
    rw [hc]
    simp
  have hrest : ∀ x ∈ m.last.cursor.after ++ r, isBlank x = true :=
    List.forall_mem_append.mpr ⟨hafter, hr⟩
  obtain ⟨m', hm', hblank⟩ :=
    exists_findLast?_of_terminal hw ((fresh_of_blanks hl).append hp) hb hs hrest
  rw [← hext] at hm'
  refine isIdle_sure ?_
  rw [tailJunk?, hm']
  dsimp only
  rw [hblank]
  rfl

end

end Repair

end SnippetGate
