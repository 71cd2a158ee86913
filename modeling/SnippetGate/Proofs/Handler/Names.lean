import SnippetGate.Proofs.Handler.Branches
import SnippetGate.Proofs.Handler.Lines

/-!
# The names in a filled block

A filled block holds the names of the position, its setter, the setter of the flag for the end and
the collection, and apart from them words of the language. All of them but the collection are names
of their own in the text. The collection need not be: what stands before `.length` may be the end of
a member expression.
-/

namespace SnippetGate.Handler

open Pattern

variable {t a b i n w name collection : Text} {vs : List StateVar} {lines : List Text}
  {index finish : StateVar}

/-- The names in a block that are words of the language. -/
def bodyWords : List Text := ["if", "else", "true", "length"].map String.toList

/-- The name of the script is one of the names in the text. -/
def Mentions (t n : Text) : Prop := IsName n ∧ t.NamesAlone n

theorem not_mentions_nil : ¬ Mentions [] n := fun h => Text.not_namesAlone_nil h.1.ne_nil h.2

/-- Between two texts that are separated, no name stands across. -/
theorem mentions_append_iff {sep : Text} (hsep : ∀ z ∈ sep, isNameChar z = false) (hne : sep ≠ [])
    (a b : Text) : Mentions (a ++ (sep ++ b)) n ↔ Mentions a n ∨ Mentions b n := by
  refine Comparison.append_iff (P := (Mentions · n)) not_mentions_nil (fun z hz a b => ?_) hne a b
  simp only [Mentions, ← and_or_left]
  exact and_congr_right fun hn => Text.namesAlone_append_cons_iff
    (not_mem_of_isName hn (hsep z hz)) (hsep z hz)

/-- What separates names mentions none. -/
theorem mentions_separated_iff {sep : Text} (hsep : ∀ z ∈ sep, isNameChar z = false) (b : Text) :
    Mentions (sep ++ b) n ↔ Mentions b n := by
  by_cases hne : sep = []
  · rw [hne, List.nil_append]
  · have h : Mentions ([] ++ (sep ++ b)) n ↔ _ := mentions_append_iff hsep hne [] b
    rwa [or_iff_right not_mentions_nil] at h

/-- A run of name characters mentions nothing but itself. -/
theorem mentions_word_iff (hw : ∀ x ∈ w, isNameChar x = true) :
    Mentions w n ↔ n = w ∧ IsName w := by
  constructor
  · rintro ⟨hn, u, v, rfl, hu, hv⟩
    have hunil : u = [] := by
      by_contra hne
      have hlast := hu _ (List.getLast?_eq_some_getLast hne)
      rw [hw _ (List.mem_append_left _ (List.getLast_mem hne))] at hlast
      cases hlast
    have hvnil : v = [] := by
      cases v with
      | nil => rfl
      | cons x v =>
        have hhead := hv x rfl
        rw [hw x (by simp)] at hhead
        cases hhead
    subst hunil hvnil
    simpa using hn
  · rintro ⟨rfl, hn⟩
    exact ⟨hn, [], [], by simp, nofun, nofun⟩

theorem mentions_name_iff (hw : IsName w) : Mentions w n ↔ n = w := by
  rw [mentions_word_iff hw.isNameChar, and_iff_left hw]

/-- A number is no name. -/
theorem not_mentions_one : ¬ Mentions ['1'] n := by
  rw [mentions_word_iff (by decide)]
  rintro ⟨-, x, r, h, hx, -⟩
  obtain ⟨rfl, -⟩ := List.cons.inj h
  exact absurd hx (by decide)

/-! ### The names of each line -/

theorem mentions_nested_iff : Mentions (nested w) n ↔ Mentions w n := by
  have heq : nested w = "  ".toList ++ w := rfl
  rw [heq, mentions_separated_iff (by decide)]

theorem mentions_callLine_iff {f x : Text} (hf : IsName f) :
    Mentions (callLine f x) n ↔ n = f ∨ Mentions x n := by
  have heq : callLine f x = f ++ (['('] ++ (x ++ (");".toList ++ []))) := by simp [callLine]
  rw [heq, mentions_append_iff (by decide) (by decide), mentions_append_iff (by decide) (by decide),
    mentions_name_iff hf, or_iff_left not_mentions_nil]

theorem mentions_advanceLine_iff (hname : IsName index.name) (hsetter : IsName index.setter) :
    Mentions (advanceLine index) n ↔ n = index.setter ∨ n = index.name := by
  have heq : index.name ++ " + 1".toList = index.name ++ (" + ".toList ++ ['1']) := rfl
  rw [advanceLine, mentions_callLine_iff hsetter, heq, mentions_append_iff (by decide) (by decide),
    mentions_name_iff hname, or_iff_left not_mentions_one]

theorem mentions_setLine_iff (hsetter : IsName finish.setter) :
    Mentions (setLine finish) n ↔ n = finish.setter ∨ n = "true".toList := by
  have htrue : IsName "true".toList := ⟨'t', "rue".toList, rfl, by decide, by decide⟩
  rw [setLine, mentions_callLine_iff hsetter, mentions_name_iff htrue]

/-- The line that compares the position with the length of the collection. -/
theorem mentions_head_iff (hname : IsName index.name) (hc : IsName collection) :
    Mentions ("if (".toList ++ index.name ++ " < ".toList ++ collection ++
        ".length - 1) \x7b".toList) n ↔
      n = "if".toList ∨ n = index.name ∨ n = collection ∨ n = "length".toList := by
  have heq : "if (".toList ++ index.name ++ " < ".toList ++ collection ++
      ".length - 1) \x7b".toList = "if".toList ++ (" (".toList ++ (index.name ++ (" < ".toList ++
        (collection ++ (['.'] ++ ("length".toList ++ (" - ".toList ++ (['1'] ++
          (") \x7b".toList ++ []))))))))) := by
    simp only [List.append_assoc, List.append_nil]
    rfl
  have hif : IsName "if".toList := ⟨'i', ['f'], rfl, by decide, by decide⟩
  have hlength : IsName "length".toList := ⟨'l', "ength".toList, rfl, by decide, by decide⟩
  rw [heq, mentions_append_iff (by decide) (by decide), mentions_append_iff (by decide) (by decide),
    mentions_append_iff (by decide) (by decide), mentions_append_iff (by decide) (by decide),
    mentions_append_iff (by decide) (by decide),
    mentions_name_iff hif, mentions_name_iff hname, mentions_name_iff hc, mentions_name_iff hlength,
    or_iff_right not_mentions_one, or_iff_left not_mentions_nil]

theorem not_mentions_of_separators {sep : Text} (hsep : ∀ z ∈ sep, isNameChar z = false) :
    ¬ Mentions sep n := by
  rw [← List.append_nil sep, mentions_separated_iff hsep]
  exact not_mentions_nil

theorem mentions_else_iff : Mentions "\x7d else \x7b".toList n ↔ n = "else".toList := by
  have heq : "\x7d else \x7b".toList = "\x7d ".toList ++ ("else".toList ++
      (" \x7b".toList ++ [])) := rfl
  have helse : IsName "else".toList := ⟨'e', "lse".toList, rfl, by decide, by decide⟩
  rw [heq, mentions_separated_iff (by decide), mentions_append_iff (by decide) (by decide),
    mentions_name_iff helse, or_iff_left not_mentions_nil]

/-! ### The names of a block -/

theorem not_isNameChar_of_isIndent (hi : ∀ x ∈ i, Text.isIndent x = true) :
    ∀ x ∈ i, isNameChar x = false := fun x hx =>
  not_isNameChar_of_isBlank (isBlank_of_isIndent (hi x hx))

theorem mentions_rows_iff (hi : ∀ x ∈ i, Text.isIndent x = true) (w : Text) :
    Mentions (rows lines i ++ w) n ↔ (∃ l ∈ lines, Mentions l n) ∨ Mentions w n := by
  induction lines with
  | nil => simp [rows]
  | cons l lines ih =>
    have heq : rows (l :: lines) i ++ w =
        i ++ ("  ".toList ++ l) ++ (['\n'] ++ (rows lines i ++ w)) := by
      simp [rows, nested]
    rw [heq, mentions_append_iff (by decide) (by decide),
      mentions_separated_iff (not_isNameChar_of_isIndent hi), mentions_separated_iff (by decide),
      ih, List.exists_mem_cons_iff, or_assoc]

/-- The names in a block are those in its lines. -/
theorem mentions_block_iff (hi : ∀ x ∈ i, Text.isIndent x = true) :
    Mentions (block lines i) n ↔ ∃ l ∈ lines, Mentions l n := by
  have hclose : ∀ x ∈ i ++ ['}'], isNameChar x = false :=
    List.forall_mem_append.mpr ⟨not_isNameChar_of_isIndent hi, by decide⟩
  have heq : block lines i = "\x7b\n".toList ++ (rows lines i ++ (i ++ ['}'])) := block_eq lines i
  rw [heq, mentions_separated_iff (by decide), mentions_rows_iff hi,
    or_iff_left (not_mentions_of_separators hclose)]

/-- The names in the lines that go to the next position. -/
theorem exists_of_mentions (hvs : ∀ v ∈ vs, IsName v.name ∧ IsName v.setter)
    (hc : collection = [] ∨ IsName collection) (h : advanceLines vs collection = some lines)
    (hn : ∃ l ∈ lines, Mentions l n) :
    n ∈ bodyWords ∨ n = collection ∨ ∃ v ∈ vs, n = v.name ∨ n = v.setter := by
  obtain ⟨index, hindex, rfl⟩ := Option.map_eq_some_iff.mp h
  have hmem := StateVar.mem_of_index? hindex
  obtain ⟨hname, hsetter⟩ := hvs index hmem
  have hstep (h : Mentions (advanceLine index) n) : ∃ v ∈ vs, n = v.name ∨ n = v.setter :=
    ⟨index, hmem, ((mentions_advanceLine_iff hname hsetter).mp h).symm⟩
  by_cases hempty : collection = []
  · subst hempty
    obtain ⟨l, hl, hn⟩ := hn
    obtain rfl := List.mem_singleton.mp hl
    exact .inr (.inr (hstep hn))
  · have hhead (h : Mentions ("if (".toList ++ index.name ++ " < ".toList ++ collection ++
        ".length - 1) \x7b".toList) n) :
        n ∈ bodyWords ∨ n = collection ∨ ∃ v ∈ vs, n = v.name ∨ n = v.setter := by
      rcases (mentions_head_iff hname (hc.resolve_left hempty)).mp h with rfl | rfl | rfl | rfl
      · exact .inl (by decide)
      · exact .inr (.inr ⟨index, hmem, .inl rfl⟩)
      · exact .inr (.inl rfl)
      · exact .inl (by decide)
    have hend : ¬ Mentions ['}'] n := not_mentions_of_separators (by decide)
    rw [if_neg (by simpa using hempty)] at hn
    cases hfinish : StateVar.finish? vs with
    | none =>
      simp only [hfinish, List.exists_mem_cons_iff, mentions_nested_iff, List.not_mem_nil,
        false_and, exists_false, or_false] at hn
      rcases hn with hn | hn | hn
      · exact hhead hn
      · exact .inr (.inr (hstep hn))
      · exact absurd hn hend
    | some finish =>
      have hfin := StateVar.mem_of_finish? hfinish
      simp only [hfinish, List.exists_mem_cons_iff, mentions_nested_iff, List.not_mem_nil,
        false_and, exists_false, or_false] at hn
      rcases hn with hn | hn | hn | hn | hn
      · exact hhead hn
      · exact .inr (.inr (hstep hn))
      · rw [mentions_else_iff] at hn
        exact .inl (hn ▸ by decide)
      · rcases (mentions_setLine_iff (hvs finish hfin).2).mp hn with rfl | rfl
        · exact .inr (.inr ⟨finish, hfin, .inr rfl⟩)
        · exact .inl (by decide)
      · exact absurd hn hend

/-- The collection is one of the names. -/
theorem exists_mentions_collection (hvs : ∀ v ∈ vs, IsName v.name ∧ IsName v.setter)
    (hc : IsName collection) (h : advanceLines vs collection = some lines) :
    ∃ l ∈ lines, Mentions l collection := by
  obtain ⟨index, hindex, rfl⟩ := Option.map_eq_some_iff.mp h
  have hname := (hvs index (StateVar.mem_of_index? hindex)).1
  have hhead : Mentions ("if (".toList ++ index.name ++ " < ".toList ++ collection ++
      ".length - 1) \x7b".toList) collection :=
    (mentions_head_iff hname hc).mpr (.inr (.inr (.inl rfl)))
  rw [if_neg (by simpa using hc.ne_nil)]
  cases StateVar.finish? vs <;> exact ⟨_, List.mem_cons_self, hhead⟩

end SnippetGate.Handler

namespace SnippetGate.Repair

open Handler

variable {t n i name : Text} {lines : List Text}

/-- Every name that is mentioned, but for the words of the language, is one of the text's own. -/
def IsClosedIn (t s : Text) : Prop := ∀ n, Mentions s n → n ∉ bodyWords → t.IsOwn n

/-- A name before `.length` is the text's own or the end of a longer expression. -/
theorem isOwn_or_of_length {u v : Text} (h : t = u ++ (n ++ (".length".toList ++ v))) :
    t.IsOwn n ∨ ∃ x ∈ u.getLast?, isNameChar x = true ∨ x = '.' := by
  by_cases hlast : ∀ x ∈ u.getLast?, isNameChar x = false ∧ x ≠ '.'
  · refine .inl ⟨u, ".length".toList ++ v, h, hlast, ?_⟩
    rintro _ ⟨⟩
    decide
  · push Not at hlast
    obtain ⟨x, hx, himp⟩ := hlast
    refine .inr ⟨x, hx, ?_⟩
    cases hname : isNameChar x
    · exact .inr (himp hname)
    · exact .inl rfl

/-- The names in a filled block are the text's own, except for that of the collection. That one
stands before `.length`, and if it is not the text's own it is the end of a longer expression
there. -/
theorem isClosedIn_block_iff
    (h : handlerLines? (stateOf t).1 (stateOf t).2 name = some lines)
    (hi : ∀ x ∈ i, Text.isIndent x = true) :
    (IsClosedIn t (block lines i) ↔
      ((stateOf t).2 ≠ [] → (stateOf t).2 ∉ bodyWords → t.IsOwn (stateOf t).2)) ∧
    (∀ n, Mentions (block lines i) n → n ∉ bodyWords → n ≠ (stateOf t).2 → t.IsOwn n) ∧
    ((stateOf t).2 ≠ [] → ∃ u v, t = u ++ ((stateOf t).2 ++ (".length".toList ++ v)) ∧
      (t.IsOwn (stateOf t).2 ∨ ∃ x ∈ u.getLast?, isNameChar x = true ∨ x = '.')) := by
  have hlines := advanceLines_of_handlerLines? h
  have hvs := isName_of_mem_stateOf t
  have hc := (collection_stateOf t).imp_right And.left
  have hothers : ∀ n, Mentions (block lines i) n → n ∉ bodyWords → n ≠ (stateOf t).2 →
      t.IsOwn n := by
    intro n hn hwords hne
    rcases exists_of_mentions hvs hc hlines ((mentions_block_iff hi).mp hn) with
      hmem | rfl | ⟨v, hv, rfl | rfl⟩
    · exact absurd hmem hwords
    · exact absurd rfl hne
    · exact (StateVar.declared_of_mem_findAll hv).2.2.1
    · exact (StateVar.declared_of_mem_findAll hv).2.2.2
  refine ⟨⟨fun hclosed hne hwords => ?_, fun hown n hn hwords => ?_⟩, hothers, fun hne => ?_⟩
  · have hmention := exists_mentions_collection hvs (hc.resolve_left hne) hlines
    exact hclosed _ ((mentions_block_iff hi).mpr hmention) hwords
  · by_cases heq : n = (stateOf t).2
    · subst heq
      exact hown hn.1.ne_nil hwords
    · exact hothers n hn hwords heq
  · obtain ⟨u, v, ht⟩ := ((collection_stateOf t).resolve_left hne).2
    exact ⟨u, v, ht, isOwn_or_of_length ht⟩

/-- A snippet that takes the length of a member, and an empty handler. -/
def memberLength : Text := ("const [index, setIndex] = useState(0)\n" ++
  "const n = quiz.questions.length\nconst handleNext = () => \x7b\x7d").toList

/-- The handler gets a body with a name that is not the snippet's own. -/
theorem not_isClosedIn_memberLength :
    handlerLines? (stateOf memberLength).1 (stateOf memberLength).2 "handleNext".toList =
        some ["if (index < questions.length - 1) \x7b".toList, "  setIndex(index + 1);".toList,
          ['}']] ∧
      ¬ IsClosedIn memberLength (block ["if (index < questions.length - 1) \x7b".toList,
        "  setIndex(index + 1);".toList, ['}']] []) := by
  have hlines : handlerLines? (stateOf memberLength).1 (stateOf memberLength).2
      "handleNext".toList = some ["if (index < questions.length - 1) \x7b".toList,
        "  setIndex(index + 1);".toList, ['}']] := by
    decide +kernel
  have hcollection : (stateOf memberLength).2 = "questions".toList := by decide +kernel
  refine ⟨hlines, fun hclosed => ?_⟩
  have hown := (isClosedIn_block_iff hlines (by simp)).1.mp hclosed
  rw [hcollection] at hown
  exact absurd (hown (by decide) (by decide)) (by decide +kernel)

end SnippetGate.Repair
