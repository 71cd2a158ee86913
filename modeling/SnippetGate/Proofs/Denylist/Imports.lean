import SnippetGate.Proofs.Denylist.Swap
import SnippetGate.Proofs.Pattern.Fits

/-!
# Imports that are reported

An import names a module behind the word `import` alone, or behind a clause that binds names and
the word `from`. The language leaves much freedom in the blanks between them. The deny list knows
only a part of it: there have to be blanks behind both words, and the clause has to stand on one
line. An import in another layout goes unreported, whatever module it names.
-/

namespace SnippetGate

open Pattern

variable {trusted t a b m : Text} {q : Char}

/-! ### Reported categories -/

/-- The category is among those that the text is reported for. -/
def Text.Reports (t trusted : Text) (c : DenyCategory) : Prop :=
  c ∈ (t.violations trusted).map Violation.category

theorem Text.reports_iff {c : DenyCategory} :
    t.Reports trusted c ↔ ∃ p ∈ c.patterns trusted, (p.search? t).isSome = true := by
  have hviolation : (c.violation? trusted t).isSome = true ↔
      ∃ p ∈ c.patterns trusted, (p.search? t).isSome = true := by
    rw [DenyCategory.violation?, List.findSome?_isSome_iff]
    simp
  have hall : c ∈ DenyCategory.all := by cases c <;> decide
  rw [← hviolation, Option.isSome_iff_exists]
  simp only [Text.Reports, Text.violations, List.mem_map, List.mem_filterMap,
    Option.map_eq_some_iff]
  constructor
  · rintro ⟨_, ⟨c, -, fragment, hv, rfl⟩, rfl⟩
    exact ⟨fragment, hv⟩
  · rintro ⟨fragment, hv⟩
    exact ⟨_, ⟨c, hall, fragment, hv, rfl⟩, rfl⟩

/-! ### Modules -/

/-- What stands behind the opening quote of a module begins like the trusted name in quotes. -/
def TakenForTrusted (trusted r : Text) : Prop :=
  ∃ q r', r = trusted ++ q :: r' ∧ isModuleQuote q = true

/-- Another name than the trusted one is not taken for it, if there is no quote in the names. -/
theorem not_takenForTrusted (hne : m ≠ trusted) (hm : ∀ x ∈ m, isModuleQuote x = false)
    (ht : ∀ x ∈ trusted, isModuleQuote x = false) (hq : isModuleQuote q = true) (b : Text) :
    ¬ TakenForTrusted trusted (m ++ q :: b) := by
  rintro ⟨q', r, he, hq'⟩
  rcases List.append_eq_append_iff.mp he with ⟨k, rfl, hk⟩ | ⟨k, rfl, hk⟩
  · cases k with
    | nil => exact hne (List.append_nil m).symm
    | cons x k =>
      obtain ⟨rfl, -⟩ := List.cons.inj hk
      simp [ht q (by simp)] at hq
  · cases k with
    | nil => exact hne (List.append_nil trusted)
    | cons x k =>
      obtain ⟨rfl, -⟩ := List.cons.inj hk
      simp [hm q' (by simp)] at hq'

/-- Blanks and then a module in quotes that is not taken for the trusted one. -/
def OpensOther (trusted b : Text) : Prop :=
  ∃ g q r, b = g ++ q :: r ∧ g ≠ [] ∧ (∀ x ∈ g, isBlank x = true) ∧ isModuleQuote q = true ∧
    ¬ TakenForTrusted trusted r

theorem leads_moduleQuote {n : Nat} {l : Text} {κ : List (Nat × Capture)} {K : Progress → Prop} :
    DenyCategory.moduleQuote.Leads ⟨⟨n, l, t⟩, κ⟩ K ↔
      ∃ q r, t = q :: r ∧ isModuleQuote q = true ∧ K ⟨⟨n + 1, q :: l, r⟩, κ⟩ := leads_one

theorem leads_trusted {n : Nat} {l : Text} {κ : List (Nat × Capture)} :
    (seq (Pattern.text trusted) DenyCategory.moduleQuote).Leads ⟨⟨n, l, t⟩, κ⟩ (fun _ => True) ↔
      TakenForTrusted trusted t := by
  simp only [leads_seq, leads_text, leads_moduleQuote]
  constructor
  · rintro ⟨_, rfl, q, r, rfl, hq, -⟩
    exact ⟨q, r, rfl, hq⟩
  · rintro ⟨q, r, rfl, hq⟩
    exact ⟨_, rfl, q, r, rfl, hq, trivial⟩

theorem leads_otherModule {n : Nat} {l : Text} {κ : List (Nat × Capture)} :
    (DenyCategory.otherModule trusted).Leads ⟨⟨n, l, t⟩, κ⟩ (fun _ => True) ↔
      ∃ q r, t = q :: r ∧ isModuleQuote q = true ∧ ¬ TakenForTrusted trusted r := by
  rw [DenyCategory.otherModule, leads_seq, leads_moduleQuote]
  simp only [leads_notAhead, leads_trusted, and_true]

theorem leads_gap_otherModule {n : Nat} {l : Text} {κ : List (Nat × Capture)} :
    (seq gap (DenyCategory.otherModule trusted)).Leads ⟨⟨n, l, t⟩, κ⟩ (fun _ => True) ↔
      OpensOther trusted t := by
  rw [leads_seq, gap, many1, leads_seq, leads_one]
  simp only [leads_run, leads_otherModule]
  constructor
  · rintro ⟨x, _, rfl, hx, g, _, rfl, hg, q, r, rfl, hq, hr⟩
    exact ⟨x :: g, q, r, rfl, List.cons_ne_nil x g, List.forall_mem_cons.mpr ⟨hx, hg⟩, hq, hr⟩
  · rintro ⟨g, q, r, rfl, hne, hg, hq, hr⟩
    obtain ⟨x, g, rfl⟩ := List.exists_cons_of_ne_nil hne
    obtain ⟨hx, hg⟩ := List.forall_mem_cons.mp hg
    exact ⟨x, _, rfl, hx, g, _, rfl, hg, q, r, rfl, hq, hr⟩

/-! ### What the deny list reads as an import -/

/-- No name and no member access goes on behind the text. -/
def BeginsWord (a : Text) : Prop := ∀ x ∈ a.getLast?, Sign.afterMember x = false

/-- The word `import`, a clause, the word `from` and another module. -/
def HoldsBinding (trusted t : Text) : Prop :=
  ∃ a m b, t = a ++ (importWord ++ (m ++ (fromWord ++ b))) ∧ Clause m ∧ OpensOther trusted b

/-- The word `import` and another module. -/
def HoldsBare (trusted t : Text) : Prop :=
  ∃ a b, t = a ++ (importWord ++ b) ∧ BeginsWord a ∧ OpensOther trusted b

theorem isSome_search?_binding :
    ((Pattern.all [word "import", gap, few isFlat, word "from", gap,
      DenyCategory.otherModule trusted]).search? t).isSome = true ↔ HoldsBinding trusted t := by
  have hgap (n : Nat) (l r : Text) (κ : List (Nat × Capture)) :
      (seq gap (DenyCategory.otherModule trusted)).Leads ⟨⟨n, l, r⟩, κ⟩ (fun _ => True) ↔
        OpensOther trusted r := leads_gap_otherModule
  rw [isSome_search?]
  simp only [Pattern.all, word, gap, many1, few, leads_seq, leads_text, leads_one,
    leads_run] at hgap ⊢
  simp only [hgap]
  constructor
  · rintro ⟨a, _, rfl, _, rfl, x, _, rfl, hx, g, _, rfl, hg, f, _, rfl, hf, b, rfl, hb⟩
    exact ⟨a, x :: (g ++ f), b, by simp [importWord, fromWord], ⟨x, g, f, rfl, hx, hg, hf⟩, hb⟩
  · rintro ⟨a, m, b, rfl, ⟨x, g, f, rfl, hx, hg, hf⟩, hb⟩
    exact ⟨a, _, rfl, _, rfl, x, _, rfl, hx, g, _, List.append_assoc .., hg, f, _, rfl, hf, b, rfl,
      hb⟩

theorem isSome_search?_bare :
    ((Pattern.all [DenyCategory.freshWord, word "import", gap,
      DenyCategory.otherModule trusted]).search? t).isSome = true ↔ HoldsBare trusted t := by
  have hgap (n : Nat) (l r : Text) (κ : List (Nat × Capture)) :
      (seq gap (DenyCategory.otherModule trusted)).Leads ⟨⟨n, l, r⟩, κ⟩ (fun _ => True) ↔
        OpensOther trusted r := leads_gap_otherModule
  rw [isSome_search?]
  simp only [Pattern.all, DenyCategory.freshWord, word, gap, many1, leads_seq, leads_notAfter,
    leads_text, leads_one, leads_run, List.head?_reverse] at hgap ⊢
  simp only [hgap]
  constructor
  · rintro ⟨a, _, rfl, ha, b, rfl, hb⟩
    exact ⟨a, b, rfl, ha, hb⟩
  · rintro ⟨a, b, rfl, ha, hb⟩
    exact ⟨a, _, rfl, ha, b, rfl, hb⟩

/-- Behind a call stands a parenthesis. -/
theorem mem_of_call {w : Text}
    (h : ((Pattern.seq DenyCategory.freshWord
      (Pattern.all [Pattern.text w, blanks, char '('])).search? t).isSome = true) : '(' ∈ t := by
  obtain ⟨a, b, rfl, -, r, rfl, hr⟩ :=
    ((Sign.IsReadBy.of_sequel Sequel.call_isReadBy w).notAfter rfl _).in_iff.mp h
  obtain ⟨q, x, r, rfl, -, hx, -⟩ := (Sequel.holds_iff_of_seek (s := .call) rfl rfl
    fun _ => Sequel.not_isBlank_of_beq (by decide)).mp hr
  obtain rfl : x = '(' := by simpa using hx
  simp

/-- A text without parentheses is reported for its imports only. -/
theorem reports_externalImport_iff (h : '(' ∉ t) :
    t.Reports trusted .externalImport ↔ HoldsBinding trusted t ∨ HoldsBare trusted t := by
  rw [Text.reports_iff, ← isSome_search?_binding, ← isSome_search?_bare]
  simp only [DenyCategory.patterns, List.mem_cons, or_and_right, exists_or, exists_eq_left,
    List.not_mem_nil, or_false]
  exact or_congr_right (or_iff_left fun hcall => h (hcall.elim mem_of_call mem_of_call))

/-! ### Blanks at the end of a text -/

theorem Pattern.HasInkLast.append {w : Text} (h : HasInkLast w) (u : Text) :
    HasInkLast (u ++ w) := by
  obtain ⟨x, hx, hink⟩ := h
  exact ⟨x, by rw [List.getLast?_append, Option.mem_def.mp hx]; rfl, hink⟩

/-- The blanks at the end of a text are found again. -/
theorem Pattern.append_blanks_inj {u v g g' : Text} (hu : HasInkLast u) (hv : HasInkLast v)
    (hg : ∀ x ∈ g, isBlank x = true) (hg' : ∀ x ∈ g', isBlank x = true)
    (he : u ++ g = v ++ g') : u = v ∧ g = g' := by
  have none {w k : Text} (hw : HasInkLast (w ++ k)) (hk : ∀ x ∈ k, isBlank x = true) : k = [] := by
    obtain ⟨x, hx, hink⟩ := hw
    by_contra hne
    rw [List.getLast?_append_of_ne_nil _ hne] at hx
    simp [hk x (List.mem_of_getLast? hx)] at hink
  rcases List.append_eq_append_iff.mp he with ⟨k, rfl, rfl⟩ | ⟨k, rfl, rfl⟩
  · obtain rfl := none hv fun x hx => hg x (List.mem_append_left g' hx)
    simp
  · obtain rfl := none hu fun x hx => hg' x (List.mem_append_left g hx)
    simp

/-! ### How an import is written -/

/-- How an import is written from the word `import` up to the quote in front of its module. -/
inductive ImportForm where
  /-- The module is all that is named; `gap` stands before it. -/
  | bare (gap : Text)
  /-- Names are bound by a clause, with `before` and `after` around it, and `gap` stands between
  the word `from` and the module. -/
  | binding (before clause after gap : Text)

namespace ImportForm

/-- What stands between the word `import` and the quote. -/
def text : ImportForm → Text
  | bare gap => gap
  | binding before clause after gap => before ++ (clause ++ (after ++ (fromWord ++ gap)))

/-- Whether a character can stand in a clause that binds names. -/
def isClauseChar (c : Char) : Bool :=
  isNameChar c || isBlank c || c == '\x7b' || c == '\x7d' || c == ',' || c == '*'

/-- A clause that binds names: names in any arrangement of braces, commas, stars and blanks, without
a blank at an end. A name that ends like the word `import`, with a blank behind it, is left out, as
an import could begin there. -/
structure IsClause (c : Text) : Prop where
  chars : ∀ x ∈ c, isClauseChar x = true
  first : HasInkFirst c
  last : HasInkLast c
  plain : ∀ x, isBlank x = true → ¬ importWord ++ [x] <:+: c ++ [' ']

/-- The form is one that the language has: all that stands around the words and the clause is
blank. -/
def IsWritten : ImportForm → Prop
  | bare gap => ∀ x ∈ gap, isBlank x = true
  | binding before clause after gap =>
    (∀ x ∈ before, isBlank x = true) ∧ IsClause clause ∧ (∀ x ∈ after, isBlank x = true) ∧
      ∀ x ∈ gap, isBlank x = true

/-- The layout that the deny list knows: blanks behind both words, and no newline from the clause
on to the word `from`. -/
def IsLaidOut : ImportForm → Prop
  | bare gap => gap ≠ []
  | binding before clause after gap => before ≠ [] ∧ '\n' ∉ clause ++ after ∧ gap ≠ []

/-- An import in this form is reported, wherever it stands in a text, unless its module is taken for
the trusted one. -/
def IsReported (trusted : Text) (f : ImportForm) : Prop :=
  ∀ a q m b, BeginsWord a → isModuleQuote q = true → ¬ TakenForTrusted trusted (m ++ q :: b) →
    Text.Reports (a ++ (importWord ++ (f.text ++ q :: (m ++ q :: b)))) trusted .externalImport

variable {f : ImportForm} {before clause after gap : Text}

/-! ### A known layout is reported -/

theorem opensOther_of_gap (hne : gap ≠ []) (hgap : ∀ x ∈ gap, isBlank x = true)
    (hq : isModuleQuote q = true) (hm : ¬ TakenForTrusted trusted m) :
    OpensOther trusted (gap ++ q :: m) :=
  ⟨gap, q, m, rfl, hne, hgap, hq, hm⟩

/-- Blanks and then a line without a semicolon. -/
theorem clause_of_isLaidOut (hne : before ≠ []) (hbefore : ∀ x ∈ before, isBlank x = true)
    (hflat : ∀ x ∈ m, isFlat x = true) : Clause (before ++ m) := by
  obtain ⟨x, before, rfl⟩ := List.exists_cons_of_ne_nil hne
  obtain ⟨hx, hbefore⟩ := List.forall_mem_cons.mp hbefore
  exact ⟨x, before, m, rfl, hx, hbefore, hflat⟩

theorem isFlat_of_not_mem (hclause : IsClause clause) (hafter : ∀ x ∈ after, isBlank x = true)
    (hn : '\n' ∉ clause ++ after) : ∀ x ∈ clause ++ after, isFlat x = true := by
  intro x hx
  have hsemicolon : x ≠ ';' := by
    rintro rfl
    rcases List.mem_append.mp hx with h | h
    · exact absurd (hclause.chars _ h) (by decide)
    · exact absurd (hafter _ h) (by decide)
  have hnewline : x ≠ '\n' := by
    rintro rfl
    exact hn hx
  simp [isFlat, hsemicolon, hnewline]

theorem isReported_of_isLaidOut (hw : f.IsWritten) (h : f.IsLaidOut) : f.IsReported trusted := by
  intro a q m b ha hq hm
  rw [Text.reports_iff]
  cases f with
  | bare gap =>
    refine ⟨_, List.mem_cons_of_mem _ List.mem_cons_self, isSome_search?_bare.mpr ?_⟩
    exact ⟨a, _, rfl, ha, opensOther_of_gap h hw hq hm⟩
  | binding before clause after gap =>
    obtain ⟨hbefore, hclause, hafter, hgap⟩ := hw
    obtain ⟨hne, hn, hgne⟩ := h
    refine ⟨_, List.mem_cons_self, isSome_search?_binding.mpr ?_⟩
    refine ⟨a, before ++ (clause ++ after), gap ++ q :: (m ++ q :: b), by simp [text],
      clause_of_isLaidOut hne hbefore (isFlat_of_not_mem hclause hafter hn),
      opensOther_of_gap hgne hgap hq hm⟩

/-! ### Another layout is not -/

/-- A quote behind a blank is the first one of a text, if no blank stands behind that. -/
theorem eq_of_quote {u v w r : Text} (he : u ++ v = w ++ q :: r) (hq : isModuleQuote q = true)
    (hu : ∀ x ∈ u, isModuleQuote x = false) (hv : ∀ x ∈ v, isBlank x = false)
    (hw : ∃ x ∈ w.getLast?, isBlank x = true) : w = u := by
  rcases List.append_eq_append_iff.mp he with ⟨k, rfl, hk⟩ | ⟨k, rfl, hk⟩
  · by_contra hne
    obtain ⟨x, hx, hblank⟩ := hw
    have hkne : k ≠ [] := by
      rintro rfl
      exact hne (List.append_nil u)
    rw [List.getLast?_append_of_ne_nil _ hkne] at hx
    have hmem : x ∈ v := by
      rw [hk]
      exact List.mem_append_left _ (List.mem_of_getLast? hx)
    simp [hv x hmem] at hblank
  · cases k with
    | nil => exact (List.append_nil w).symm
    | cons x k =>
      obtain ⟨rfl, -⟩ := List.cons.inj hk
      simp [hu q (by simp)] at hq

theorem hasInkFirst_importWord : HasInkFirst importWord := ⟨'i', rfl, by decide⟩

theorem hasInkLast_importWord : HasInkLast importWord := ⟨'t', rfl, by decide⟩

theorem hasInkLast_fromWord : HasInkLast fromWord := ⟨'m', rfl, by decide⟩

/-- The word `import` with a blank behind it does not come again in a text that begins with it,
unless it does so in the clause. -/
theorem eq_nil_of_plain (hbefore : ∀ x ∈ before, isBlank x = true) (hclause : IsClause clause)
    (hafter : ∀ x ∈ after, isBlank x = true) (hm : Clause m)
    (he : importWord ++ (before ++ (clause ++ after)) = a ++ (importWord ++ m)) : a = [] := by
  have inside {k : Text} : before ++ (clause ++ after) ≠ k ++ (importWord ++ m) := by
    intro hk
    obtain ⟨c, d, rfl, -, hd⟩ := exists_of_blanks_append hbefore hafter hk hasInkFirst_importWord
      hasInkLast_importWord
    obtain ⟨x, g, f, rfl, hx, -, -⟩ := hm
    cases d with
    | nil => exact hclause.plain ' ' (by decide) ⟨c, [], by simp⟩
    | cons y d =>
      obtain rfl : x = y := (List.cons.inj hd).1
      exact hclause.plain x hx ⟨c, d ++ [' '], by simp⟩
  rcases List.append_eq_append_iff.mp he with ⟨k, -, hk⟩ | ⟨k, hword, hk⟩
  · exact absurd hk inside
  · cases k with
    | nil => exact absurd hk.symm (inside (k := []))
    | cons x k =>
      -- the first letter of the word stands nowhere else in it
      obtain rfl : x = 'i' := (List.cons.inj hk).1.symm
      cases a with
      | nil => rfl
      | cons y a =>
        have hmem : 'i' ∈ importWord.tail := by
          rw [hword]
          simp
        exact absurd hmem (by decide)

theorem isLaidOut_of_clause (hbefore : ∀ x ∈ before, isBlank x = true) (hclause : IsClause clause)
    (h : Clause (before ++ (clause ++ after))) : before ≠ [] ∧ '\n' ∉ clause ++ after := by
  obtain ⟨x, g, f, he, hx, hg, hf⟩ := h
  have hblank : ∀ y ∈ x :: g, isBlank y = true := List.forall_mem_cons.mpr ⟨hx, hg⟩
  have hflat : ∀ {k : Text}, f = k ++ (clause ++ after) → '\n' ∉ clause ++ after := by
    rintro k rfl hn
    exact absurd (hf _ (List.mem_append_right k hn)) (by decide)
  rw [← List.cons_append] at he
  rcases List.append_eq_append_iff.mp he with ⟨k, hk, hrest⟩ | ⟨k, rfl, hrest⟩
  · cases k with
    | nil =>
      rw [List.append_nil] at hk
      subst hk
      exact ⟨List.cons_ne_nil x g, hflat (k := []) hrest.symm⟩
    | cons y k =>
      obtain ⟨z, hz, hink⟩ := hclause.first
      have hy : y ∈ x :: g := hk ▸ by simp
      obtain rfl : z = y := by
        have := congrArg List.head? hrest
        rw [List.head?_append, Option.mem_def.mp hz] at this
        simpa using this
      simp [hblank z hy] at hink
  · exact ⟨by simp, hflat hrest⟩

/-- A name that is not the trusted one, of one letter only. -/
def strange (trusted : Text) : Text := List.replicate (trusted.length + 1) 'x'

theorem not_takenForTrusted_strange (trusted : Text) :
    ¬ TakenForTrusted trusted (strange trusted ++ ['\x22']) := by
  rintro ⟨q, r, he, hq⟩
  have hx := congrArg (·[trusted.length]?) he
  simp only [strange, List.getElem?_append_right (Nat.le_refl _), Nat.sub_self,
    List.getElem?_cons_zero] at hx
  rw [List.getElem?_append_left (by simp), List.getElem?_replicate_of_lt (Nat.lt_succ_self _)] at hx
  obtain rfl := Option.some.inj hx
  exact absurd hq (by decide)

/-- The characters of an import outside of its quotes. -/
theorem mem_text (hw : f.IsWritten) {x : Char} (hx : x ∈ importWord ++ f.text) :
    isClauseChar x = true := by
  have blank {g : Text} (hg : ∀ x ∈ g, isBlank x = true) (hm : x ∈ g) : isClauseChar x = true := by
    simp [isClauseChar, hg x hm]
  have words : ∀ x ∈ importWord ++ fromWord, isClauseChar x = true := by decide +kernel
  rcases List.mem_append.mp hx with hx | hx
  · exact words x (List.mem_append_left _ hx)
  cases f with
  | bare gap => exact blank hw hx
  | binding before clause after gap =>
    obtain ⟨hbefore, hclause, hafter, hgap⟩ := hw
    simp only [text, List.mem_append] at hx
    rcases hx with hx | hx | hx | hx | hx
    · exact blank hbefore hx
    · exact hclause.chars x hx
    · exact blank hafter hx
    · exact words x (List.mem_append_right _ hx)
    · exact blank hgap hx

theorem not_isModuleQuote_of_isClauseChar {x : Char} (h : isClauseChar x = true) :
    isModuleQuote x = false := by
  cases hq : isModuleQuote x with
  | false => rfl
  | true =>
    simp only [isModuleQuote, Bool.or_eq_true, beq_iff_eq] at hq
    rcases hq with rfl | rfl <;> exact absurd h (by decide +kernel)

/-- What is found in an import with the clause of another one is its own clause. -/
theorem isLaidOut_of_binding {g : Text} (hw : f.IsWritten) (hm : Clause m) (hne : g ≠ [])
    (hg : ∀ x ∈ g, isBlank x = true)
    (he : (a ++ (importWord ++ (m ++ fromWord))) ++ g = importWord ++ f.text) : f.IsLaidOut := by
  cases f with
  | bare gap =>
    rintro rfl
    have hlength := congrArg List.length he
    simp only [List.length_append, text, List.length_nil] at hlength
    exact hne (List.length_eq_zero_iff.mp (by omega))
  | binding before clause after gap =>
    obtain ⟨hbefore, hclause, hafter, hgap⟩ := hw
    obtain ⟨hwords, rfl⟩ := append_blanks_inj
      (u := a ++ (importWord ++ (m ++ fromWord)))
      (v := importWord ++ (before ++ (clause ++ (after ++ fromWord))))
      (((hasInkLast_fromWord.append m).append importWord).append a)
      ((((hasInkLast_fromWord.append after).append clause).append before).append importWord) hg hgap
      (by simpa [text] using he)
    have hclauses : importWord ++ (before ++ (clause ++ after)) = a ++ (importWord ++ m) := by
      rw [← List.append_left_inj fromWord]
      simpa only [List.append_assoc] using hwords.symm
    obtain rfl := eq_nil_of_plain hbefore hclause hafter hm hclauses
    obtain rfl : before ++ (clause ++ after) = m := by simpa using hclauses
    obtain ⟨hbne, hn⟩ := isLaidOut_of_clause hbefore hclause hm
    exact ⟨hbne, hn, hne⟩

/-- What is found in an import without a clause has none. -/
theorem isLaidOut_of_bare {g : Text} (hw : f.IsWritten) (hne : g ≠ [])
    (hg : ∀ x ∈ g, isBlank x = true) (he : (a ++ importWord) ++ g = importWord ++ f.text) :
    f.IsLaidOut := by
  cases f with
  | bare gap =>
    rintro rfl
    have hlength := congrArg List.length he
    simp only [List.length_append, text, List.length_nil] at hlength
    exact hne (List.length_eq_zero_iff.mp (by omega))
  | binding before clause after gap =>
    obtain ⟨-, -, -, hgap⟩ := hw
    obtain ⟨hwords, -⟩ := append_blanks_inj
      (v := importWord ++ (before ++ (clause ++ after)) ++ fromWord)
      (hasInkLast_importWord.append _) (hasInkLast_fromWord.append _) hg hgap
      (by simpa [text] using he)
    have hlast := congrArg List.getLast? hwords
    rw [List.getLast?_append_of_ne_nil _ (by decide), List.getLast?_append_of_ne_nil _ (by decide)]
      at hlast
    exact absurd hlast (by decide)

theorem isLaidOut_of_isReported (hw : f.IsWritten) (h : f.IsReported trusted) : f.IsLaidOut := by
  have hreports := h [] '\x22' (strange trusted) [] nofun rfl (not_takenForTrusted_strange trusted)
  have hstrange : ∀ x ∈ '\x22' :: (strange trusted ++ ['\x22']), x = '\x22' ∨ x = 'x' := by
    simp [strange]
  have hparen : '(' ∉ importWord ++ (f.text ++ '\x22' :: (strange trusted ++ ['\x22'])) := by
    rw [← List.append_assoc, List.mem_append]
    rintro (hm | hm)
    · exact absurd (mem_text hw hm) (by decide +kernel)
    · rcases hstrange _ hm with h | h <;> exact absurd h (by decide)
  -- the blanks of the reported import are those in front of the first quote
  have front {w g r : Text} {q : Char} (hg : g ≠ []) (hblank : ∀ x ∈ g, isBlank x = true)
      (hq : isModuleQuote q = true)
      (he : importWord ++ (f.text ++ '\x22' :: (strange trusted ++ ['\x22'])) =
        w ++ (g ++ q :: r)) :
      w ++ g = importWord ++ f.text := by
    rw [← List.append_assoc, ← List.append_assoc w] at he
    refine eq_of_quote he hq (fun x hx => not_isModuleQuote_of_isClauseChar (mem_text hw hx))
      (fun x hx => ?_) ?_
    · rcases hstrange x hx with rfl | rfl <;> decide
    · rw [List.getLast?_append_of_ne_nil _ hg]
      exact ⟨_, List.getLast?_eq_some_getLast hg, hblank _ (List.getLast_mem hg)⟩
  rw [List.nil_append, reports_externalImport_iff hparen] at hreports
  rcases hreports with ⟨a, m, _, he, hm, g, q, r, rfl, hne, hg, hq, -⟩ |
    ⟨a, _, he, -, g, q, r, rfl, hne, hg, hq, -⟩
  · exact isLaidOut_of_binding hw hm hne hg (front hne hg hq (by simpa using he))
  · exact isLaidOut_of_bare hw hne hg (front hne hg hq (by simpa using he))

/-- An import is reported wherever it stands and whatever it names just if it is laid out as the
deny list expects. -/
theorem isReported_iff_isLaidOut (trusted : Text) (hw : f.IsWritten) :
    f.IsReported trusted ↔ f.IsLaidOut :=
  ⟨isLaidOut_of_isReported hw, isReported_of_isLaidOut hw⟩

/-- A name that is bound on one line. -/
def oneLine : ImportForm := .binding [' '] ['a'] [' '] [' ']

/-- Names that are bound on more than one line. -/
def severalLines : ImportForm := .binding [' '] "\x7b\n  a,\n  b\n\x7d".toList [' '] [' ']

theorem isReported_oneLine_not_severalLines :
    oneLine.IsWritten ∧ severalLines.IsWritten ∧
      Text.Reports "import a from \x22lodash\x22;".toList trustedModule .externalImport ∧
      ¬ severalLines.IsReported trustedModule := by
  have plain {c : Text} (h : 'i' ∉ c ++ [' ']) :
      ∀ x, isBlank x = true → ¬ importWord ++ [x] <:+: c ++ [' '] :=
    fun x _ hi => h (hi.subset (List.mem_append_left [x] (by decide)))
  have hone : oneLine.IsWritten :=
    ⟨by decide, ⟨by decide +kernel, ⟨'a', rfl, by decide⟩, ⟨'a', rfl, by decide⟩,
      plain (by decide +kernel)⟩, by decide, by decide⟩
  have hseveral : severalLines.IsWritten :=
    ⟨by decide, ⟨by decide +kernel, ⟨'\x7b', rfl, by decide⟩, ⟨'\x7d', rfl, by decide⟩,
      plain (by decide +kernel)⟩, by decide, by decide⟩
  refine ⟨hone, hseveral, ?_, fun h => ?_⟩
  · have hlaidOut : oneLine.IsLaidOut := ⟨by decide, by decide, by decide⟩
    exact (isReported_iff_isLaidOut trustedModule hone).mpr hlaidOut [] '\x22' "lodash".toList [';']
      nofun rfl (not_takenForTrusted (by decide) (by decide) (by decide) rfl _)
  · obtain ⟨-, hn, -⟩ := (isReported_iff_isLaidOut trustedModule hseveral).mp h
    exact hn (by decide)

end ImportForm

end SnippetGate
