import SnippetGate.Proofs.Handler.Lines

/-!
# Empty handlers as texts

An empty handler is a head with its name, a list of parameters, and an empty block. Where one of
them begins inside of another, in front of the parameters, they end together; and apart from that an
empty function can begin in the type of an arrow function. A filled block begins in none of them.
-/

namespace SnippetGate.Handler

open Pattern Signature

/-! ### The parts of an empty handler -/

/-- The forms of functions. -/
inductive Form where
  | arrow
  | function
  deriving DecidableEq

namespace Form

variable {f : Form} {i n h w ps z b : Text}

/-- The pattern of the empty functions of a form. -/
def pattern : Form → Pattern
  | arrow => emptyArrow
  | function => emptyFunction

theorem mem_emptyHandlers_iff {p : Pattern} : p ∈ emptyHandlers ↔ ∃ f : Form, p = f.pattern := by
  constructor
  · intro h
    rcases List.mem_cons.mp h with rfl | h
    · exact ⟨arrow, rfl⟩
    · exact ⟨function, List.mem_singleton.mp h⟩
  · rintro ⟨f | f, rfl⟩
    · exact List.mem_cons_self
    · exact List.mem_cons_of_mem _ List.mem_cons_self

/-- At least one blank. -/
structure IsGap (g : Text) : Prop where
  blank : ∀ x ∈ g, isBlank x = true
  ne_nil : g ≠ []

/-- A character that separates the parts of a handler. -/
def isSign (c : Char) : Bool := "()=>\x7b\x7d".toList.contains c

/-- What stands before the parameters of a function with the name `n`. -/
def IsHead : Form → Text → Text → Text → Prop
  | arrow, i, n, h => ∃ k g e y, h = i ++ (k ++ (g ++ (n ++ (e ++ '=' :: y)))) ∧
      k ∈ ["const".toList, "let".toList, "var".toList] ∧ IsGap g ∧ IsName n ∧
      (∀ x ∈ e, isBlank x = true) ∧ ∀ x ∈ y, isSign x = false
  | function, i, n, h => ∃ k g e, h = i ++ (k ++ ("function".toList ++ (g ++ (n ++ e)))) ∧
      (k = [] ∨ ∃ g, k = "async".toList ++ g ∧ IsGap g) ∧ IsGap g ∧ IsName n ∧
      ∀ x ∈ e, isBlank x = true

/-- What stands between the parameters and the block. -/
def IsTail : Form → Text → Prop
  | arrow, z => ∃ y e, z = y ++ '=' :: '>' :: e ∧ (∀ x ∈ y, x ≠ '=' ∧ x ≠ '{') ∧
      ∀ x ∈ e, isBlank x = true
  | function, z => ∀ x ∈ z, isBlank x = true

/-- What an empty handler consists of. -/
structure IsEmpty (f : Form) (i n h ps z b : Text) : Prop where
  indent : ∀ x ∈ i, Text.isIndent x = true
  head : f.IsHead i n h
  params : ∀ x ∈ ps, noParen x = true
  tail : f.IsTail z
  blank : ∀ x ∈ b, isBlank x = true

/-- The text of an empty handler. -/
def written (h ps z b : Text) : Text := h ++ '(' :: (ps ++ ')' :: (z ++ '{' :: (b ++ ['}'])))

end Form

theorem fits_gap {u w v : Text} : gap.Fits u w v ↔ Form.IsGap w := by
  constructor
  · rintro ⟨_, r, rfl, ⟨x, rfl, hx⟩, hr⟩
    exact ⟨List.forall_mem_cons.mpr ⟨hx, hr⟩, List.cons_ne_nil x r⟩
  · rintro ⟨hblank, hne⟩
    obtain ⟨x, r, rfl⟩ := List.exists_cons_of_ne_nil hne
    obtain ⟨hx, hr⟩ := List.forall_mem_cons.mp hblank
    exact ⟨[x], r, rfl, ⟨x, rfl, hx⟩, hr⟩

theorem fits_char {u w v : Text} {c : Char} : (char c).Fits u w v ↔ w = [c] := by
  constructor
  · rintro ⟨x, rfl, hx⟩
    obtain rfl : x = c := by simpa using hx
    rfl
  · rintro rfl
    exact ⟨c, rfl, beq_self_eq_true c⟩

theorem fits_declarator {u w v : Text} :
    declarator.Fits u w v ↔ w ∈ ["const".toList, "let".toList, "var".toList] := by
  simp [declarator, any, Fits, word, fits_text]

/-- Characters of a class between two brackets. -/
theorem fits_enclosed {u w v : Text} {y z : Char} {q : Char → Bool} :
    (all [char y, many q, char z]).Fits u w v ↔ ∃ t, w = y :: (t ++ [z]) ∧ ∀ x ∈ t, q x = true := by
  constructor
  · rintro ⟨_, _, rfl, hopen, t, _, rfl, ht, hclose⟩
    obtain rfl := fits_char.mp hopen
    obtain rfl := fits_char.mp hclose
    exact ⟨t, rfl, ht⟩
  · rintro ⟨t, rfl, ht⟩
    exact ⟨[y], _, rfl, fits_char.mpr rfl, t, [z], rfl, ht, fits_char.mpr rfl⟩

theorem fits_flatParameters {u w v : Text} : flatParameters.Fits u w v ↔
    ∃ ps, w = '(' :: (ps ++ [')']) ∧ ∀ x ∈ ps, noParen x = true :=
  fits_enclosed

theorem fits_emptyBlock {u w v : Text} : emptyBlock.Fits u w v ↔
    ∃ b, w = '{' :: (b ++ ['}']) ∧ ∀ x ∈ b, isBlank x = true :=
  fits_enclosed

theorem Form.isSign_eq_false {q : Char → Bool} {c : Char} (hq : q c = true)
    (h : ∀ x ∈ "()=>\x7b\x7d".toList, q x = false) : Form.isSign c = false := by
  rw [Form.isSign, List.contains_eq_mem, decide_eq_false_iff_not]
  intro hmem
  rw [h c hmem] at hq
  cases hq

theorem isSign_of_isBlank {c : Char} (h : isBlank c = true) : Form.isSign c = false :=
  Form.isSign_eq_false h (by decide)

theorem isSign_of_isNameChar {c : Char} (h : isNameChar c = true) : Form.isSign c = false :=
  Form.isSign_eq_false h (by decide)

open Form

/-- The beginning of the function after the equals sign. -/
theorem isSign_of_fits {u w v : Text} (h : (opt (.seq (word "async") blanks)).Fits u w v) :
    ∀ x ∈ w, isSign x = false := by
  rcases h with ⟨_, e, rfl, hw, he⟩ | rfl
  · obtain rfl := fits_text.mp hw
    exact List.forall_mem_append.mpr ⟨by decide, fun x hx => isSign_of_isBlank (he x hx)⟩
  · exact nofun

/-- The type of the result. -/
theorem ne_sign_of_fits {u w v : Text} (h : (opt (all [char ':', blanks,
    few1 fun c => c != '=' && c != ';' && c != '{' && c != '}'])).Fits u w v) :
    ∀ x ∈ w, x ≠ '=' ∧ x ≠ '{' := by
  rcases h with ⟨_, _, rfl, hc, e, _, rfl, he, _, r, rfl, ⟨x, rfl, hx⟩, hr⟩ | rfl
  · obtain rfl := fits_char.mp hc
    have hq {y : Char} (hy : (y != '=' && y != ';' && y != '{' && y != '}') = true) :
        y ≠ '=' ∧ y ≠ '{' := by
      simp only [Bool.and_eq_true, bne_iff_ne] at hy
      exact ⟨hy.1.1.1, hy.1.2⟩
    have hb {y : Char} (hy : isBlank y = true) : y ≠ '=' ∧ y ≠ '{' := by
      constructor <;> rintro rfl <;> exact absurd hy (by decide)
    intro y hy
    simp only [List.mem_append, List.mem_singleton] at hy
    rcases hy with rfl | hy | rfl | hy
    · decide
    · exact hb (he y hy)
    · exact hq hx
    · exact hq (hr y hy)
  · exact nofun

/-- A match of the pattern for empty arrow functions. -/
theorem isEmpty_arrow_of_fitsWith {u w v : Text} {κ : List (Nat × Text)}
    (h : emptyArrow.FitsWith u w v κ) :
    (∀ x ∈ u.getLast?, x = '\n') ∧ ∃ i n h ps z b, κ = [(2, n), (1, i)] ∧ w = written h ps z b ∧
      arrow.IsEmpty i n h ps z b := by
  obtain ⟨_, _, rfl, ⟨rfl, hline⟩, h⟩ := (fitsWith_seq_iff rfl).mp h
  obtain ⟨i, _, κ, rfl, rfl, hi, h⟩ := (fitsWith_seq_group_iff rfl).mp h
  obtain ⟨k, _, rfl, hk, h⟩ := (fitsWith_seq_iff rfl).mp h
  obtain ⟨g, _, rfl, hg, h⟩ := (fitsWith_seq_iff rfl).mp h
  obtain ⟨n, _, κ, rfl, rfl, hn, h⟩ := (fitsWith_seq_group_iff rfl).mp h
  obtain ⟨⟨e, _, rfl, he, _, _, rfl, heq, e', _, rfl, he', y, _, rfl, hy, _, _, rfl, hps, e₃, _,
    rfl, he₃, ty, _, rfl, hty, _, _, rfl, harrow, e₄, _, rfl, he₄, hblock⟩, rfl⟩ :=
    (fitsWith_iff_of_isUngrouped rfl).mp h
  obtain rfl := fits_char.mp heq
  obtain ⟨ps, rfl, hparams⟩ := fits_flatParameters.mp hps
  obtain rfl := fits_text.mp harrow
  obtain ⟨b, rfl, hb⟩ := fits_emptyBlock.mp hblock
  refine ⟨hline, i, n, i ++ (k ++ (g ++ (n ++ (e ++ '=' :: (e' ++ y))))), ps,
    (e₃ ++ ty) ++ '=' :: '>' :: e₄, b, rfl, ?_, hi, ?_, hparams, ?_, hb⟩
  · simp [written]
  · refine ⟨k, g, e, e' ++ y, rfl, fits_declarator.mp hk, fits_gap.mp hg, fits_name.mp hn, he, ?_⟩
    exact List.forall_mem_append.mpr ⟨fun x hx => isSign_of_isBlank (he' x hx), isSign_of_fits hy⟩
  · refine ⟨e₃ ++ ty, e₄, rfl, List.forall_mem_append.mpr ⟨fun x hx => ?_, ne_sign_of_fits hty⟩,
      he₄⟩
    constructor <;> rintro rfl <;> exact absurd (he₃ _ hx) (by decide)

/-- A match of the pattern for empty functions. -/
theorem isEmpty_function_of_fitsWith {u w v : Text} {κ : List (Nat × Text)}
    (h : emptyFunction.FitsWith u w v κ) :
    (∀ x ∈ u.getLast?, x = '\n') ∧ ∃ i n h ps z b, κ = [(2, n), (1, i)] ∧ w = written h ps z b ∧
      function.IsEmpty i n h ps z b := by
  obtain ⟨_, _, rfl, ⟨rfl, hline⟩, h⟩ := (fitsWith_seq_iff rfl).mp h
  obtain ⟨i, _, κ, rfl, rfl, hi, h⟩ := (fitsWith_seq_group_iff rfl).mp h
  obtain ⟨k, _, rfl, hk, h⟩ := (fitsWith_seq_iff rfl).mp h
  obtain ⟨_, _, rfl, hword, h⟩ := (fitsWith_seq_iff rfl).mp h
  obtain ⟨g, _, rfl, hg, h⟩ := (fitsWith_seq_iff rfl).mp h
  obtain ⟨n, _, κ, rfl, rfl, hn, h⟩ := (fitsWith_seq_group_iff rfl).mp h
  obtain ⟨⟨e, _, rfl, he, _, _, rfl, hps, z, _, rfl, hz, hblock⟩, rfl⟩ :=
    (fitsWith_iff_of_isUngrouped rfl).mp h
  obtain rfl := fits_text.mp hword
  obtain ⟨ps, rfl, hparams⟩ := fits_flatParameters.mp hps
  obtain ⟨b, rfl, hb⟩ := fits_emptyBlock.mp hblock
  refine ⟨hline, i, n, i ++ (k ++ ("function".toList ++ (g ++ (n ++ e)))), ps, z, b, rfl, ?_, hi,
    ⟨k, g, e, rfl, ?_, fits_gap.mp hg, fits_name.mp hn, he⟩, hparams, hz, hb⟩
  · simp [written]
  · rcases hk with ⟨_, g, rfl, hw, hg⟩ | rfl
    · obtain rfl := fits_text.mp hw
      exact .inr ⟨g, rfl, fits_gap.mp hg⟩
    · exact .inl rfl

/-- A match of a pattern for empty handlers. -/
theorem Form.of_fitsWith {f : Form} {u w v : Text} {κ : List (Nat × Text)}
    (h : f.pattern.FitsWith u w v κ) :
    (∀ x ∈ u.getLast?, x = '\n') ∧ ∃ i n h ps z b, κ = [(2, n), (1, i)] ∧ w = written h ps z b ∧
      f.IsEmpty i n h ps z b := by
  cases f with
  | arrow => exact isEmpty_arrow_of_fitsWith h
  | function => exact isEmpty_function_of_fitsWith h

namespace Form

variable {f : Form} {i i' n n' h ps z b a r s t u v w x y : Text} {lines : List Text}

theorem isSign_of_mem_declarators {k : Text}
    (h : k ∈ ["const".toList, "let".toList, "var".toList]) : ∀ x ∈ k, isSign x = false := by
  simp only [List.mem_cons, List.not_mem_nil, or_false] at h
  rcases h with rfl | rfl | rfl <;> decide

theorem IsGap.isSign (h : IsGap w) : ∀ x ∈ w, isSign x = false := fun x hx =>
  isSign_of_isBlank (h.blank x hx)

theorem isSign_of_isName (h : IsName n) : ∀ x ∈ n, isSign x = false := fun x hx =>
  isSign_of_isNameChar (h.isNameChar x hx)

namespace IsEmpty

variable (he : f.IsEmpty i n h ps z b)

include he

theorem isSign_indent : ∀ x ∈ i, isSign x = false := fun x hx =>
  isSign_of_isBlank (isBlank_of_isIndent (he.indent x hx))

/-- Only the sign of a definition stands before the parameters. -/
theorem eq_of_isSign : ∀ x ∈ h, isSign x = true → x = '=' := by
  have hnone {l : Text} (hl : ∀ x ∈ l, isSign x = false) : ∀ x ∈ l, isSign x = true → x = '=' :=
    fun x hx hsign => by
      rw [hl x hx] at hsign
      cases hsign
  have hi := hnone he.isSign_indent
  cases f with
  | arrow =>
    obtain ⟨k, g, e, y, rfl, hk, hg, hn, hblank, hy⟩ := he.head
    simp only [List.forall_mem_append, List.forall_mem_cons]
    exact ⟨hi, hnone (isSign_of_mem_declarators hk), hnone hg.isSign, hnone (isSign_of_isName hn),
      hnone fun x hx => isSign_of_isBlank (hblank x hx), fun _ => trivial, hnone hy⟩
  | function =>
    obtain ⟨k, g, e, rfl, hk, hg, hn, hblank⟩ := he.head
    have hkey : ∀ x ∈ k, isSign x = false := by
      rcases hk with rfl | ⟨g, rfl, hg⟩
      · exact nofun
      · exact List.forall_mem_append.mpr ⟨by decide, hg.isSign⟩
    simp only [List.forall_mem_append]
    exact ⟨hi, hnone hkey, hnone (by decide), hnone hg.isSign, hnone (isSign_of_isName hn),
      hnone fun x hx => isSign_of_isBlank (hblank x hx)⟩

theorem not_mem_head {c : Char} (hc : isSign c = true) (hc' : c ≠ '=') : c ∉ h := fun hmem =>
  hc' (he.eq_of_isSign c hmem hc)

theorem noParen_head : ∀ x ∈ h, noParen x = true := by
  intro x hx
  rw [noParen, Bool.and_eq_true, bne_iff_ne, bne_iff_ne]
  constructor <;> rintro rfl <;> exact he.not_mem_head (by decide) (by decide) hx

theorem opens (s : Text) : Opens (h ++ s) := by
  cases f with
  | arrow =>
    obtain ⟨k, g, e, y, rfl, hk, hg, -⟩ := he.head
    obtain ⟨x, g, rfl⟩ := List.exists_cons_of_ne_nil hg.ne_nil
    refine ⟨i, k, x, g ++ (n ++ (e ++ '=' :: y)) ++ s, by simp, he.indent, ?_,
      hg.blank x List.mem_cons_self⟩
    simp only [List.mem_cons, List.not_mem_nil, or_false] at hk
    rcases hk with rfl | rfl | rfl <;> decide
  | function =>
    obtain ⟨k, g, e, rfl, hk, hg, -⟩ := he.head
    rcases hk with rfl | ⟨g', rfl, hg'⟩
    · obtain ⟨x, g, rfl⟩ := List.exists_cons_of_ne_nil hg.ne_nil
      exact ⟨i, "function".toList, x, g ++ (n ++ e) ++ s, by simp, he.indent, by decide,
        hg.blank x List.mem_cons_self⟩
    · obtain ⟨x, g', rfl⟩ := List.exists_cons_of_ne_nil hg'.ne_nil
      exact ⟨i, "async".toList, x, g' ++ ("function".toList ++ (g ++ (n ++ e))) ++ s, by simp,
        he.indent, by decide, hg'.blank x List.mem_cons_self⟩

/-- A handler is indented by all the spaces and tabs that it begins with. -/
theorem takeWhile_written : (written h ps z b).takeWhile Text.isIndent = i := by
  have hhead : ∃ x r, h = i ++ x :: r ∧ Text.isIndent x = false := by
    cases f with
    | arrow =>
      obtain ⟨k, g, e, y, rfl, hk, -⟩ := he.head
      simp only [List.mem_cons, List.not_mem_nil, or_false] at hk
      rcases hk with rfl | rfl | rfl <;> exact ⟨_, _, rfl, by decide⟩
    | function =>
      obtain ⟨k, g, e, rfl, hk, -⟩ := he.head
      rcases hk with rfl | ⟨g', rfl, -⟩ <;> exact ⟨_, _, rfl, by decide⟩
  obtain ⟨x, r, rfl, hx⟩ := hhead
  rw [written, List.append_assoc, List.takeWhile_append_of_pos he.indent, List.cons_append,
    List.takeWhile_cons_of_neg (by simp [hx]), List.append_nil]

theorem brace_not_mem_tail : '{' ∉ z := by
  cases f with
  | arrow =>
    obtain ⟨y, e, rfl, hy, hblank⟩ := he.tail
    have hy' : '{' ∉ y := fun hmem => (hy _ hmem).2 rfl
    have he' : '{' ∉ e := fun hmem => absurd (hblank _ hmem) (by decide)
    simp [hy', he']
  | function => exact fun hmem => absurd (he.tail _ hmem) (by decide)

/-- A brace stands in the parameters or opens the block. -/
theorem brace_cases (hw : written h ps z b = x ++ '{' :: y) :
    (∃ d, (∀ c ∈ d, noParen c = true) ∧ ∃ r, y = d ++ ')' :: r) ∨ y = b ++ ['}'] := by
  obtain ⟨l, rfl, hl⟩ := Text.exists_of_append_cons_eq hw.symm
    (he.not_mem_head (by decide) (by decide))
  cases l with
  | nil => exact absurd (List.cons.inj hl).1 (by decide)
  | cons c l =>
    obtain ⟨rfl, hparams⟩ := List.cons.inj hl
    rcases Text.cases_of_append_cons_eq hparams with ⟨d, rfl, hd⟩ | ⟨d, rfl, htail⟩
    · cases d with
      | nil => exact absurd (List.cons.inj hd).1 (by decide)
      | cons c d =>
        obtain ⟨rfl, rfl⟩ := List.cons.inj hd
        exact .inl ⟨d, fun c hc => he.params c (by simp [hc]), _, rfl⟩
    · obtain ⟨d, rfl, hbody⟩ := Text.exists_of_append_cons_eq htail.symm he.brace_not_mem_tail
      cases d with
      | nil => exact .inr (List.cons.inj hbody).2.symm
      | cons c d =>
        obtain ⟨rfl, hblock⟩ := List.cons.inj hbody
        have hmem : '{' ∈ b ++ ['}'] := hblock ▸ List.mem_append_right d List.mem_cons_self
        rcases List.mem_append.mp hmem with hmem | hmem
        · exact absurd (he.blank _ hmem) (by decide)
        · exact absurd (List.mem_singleton.mp hmem) (by decide)

/-- No filled block begins in an empty handler. -/
theorem ne_block (hb : IsBody lines) (hi : ∀ y ∈ i', Text.isIndent y = true)
    (hw : written h ps z b = x ++ y) (hy : y ≠ []) : y ++ s ≠ block lines i' ++ r := by
  obtain ⟨k, c, a, q, hblock, hk, hc, hc', ha⟩ := hb.exists_block hi
  rw [hblock]
  intro heq
  obtain ⟨d, y, rfl⟩ := List.exists_cons_of_ne_nil hy
  obtain ⟨rfl, htail⟩ := List.cons.inj heq
  rcases he.brace_cases hw with ⟨d, hd, l, rfl⟩ | rfl
  · -- the first parenthesis behind it opens in the one text and closes in the other
    have hparen : d ++ ')' :: (l ++ s) = (k ++ c :: a) ++ '(' :: (q ++ r) := by simpa using htail
    have hk' : ∀ x ∈ k, noParen x = true := fun x hx => by
      rw [noParen, Bool.and_eq_true, bne_iff_ne, bne_iff_ne]
      constructor <;> rintro rfl <;> exact absurd (hk _ hx) (by decide)
    have hfirst := Text.eq_of_first_of_other hd (List.forall_mem_append.mpr ⟨hk', ha⟩) (by decide)
      (by decide) hparen
    exact absurd hfirst.2.1 (by decide)
  · -- the block ends in the one text and goes on in the other
    have hend : b ++ '}' :: s = k ++ c :: (a ++ '(' :: q ++ r) := by simpa using htail
    exact hc' (Text.eq_of_first_of_other he.blank hk (by decide) hc hend).2.1.symm

end IsEmpty

/-! ### Empty handlers of one form that share text -/

/-- The last name before some blanks. -/
theorem name_unique {c c' e e' : Text} {x x' : Char} (hx : isBlank x = true)
    (hx' : isBlank x' = true) (hn : IsName n) (hn' : IsName n') (he : ∀ x ∈ e, isBlank x = true)
    (he' : ∀ x ∈ e', isBlank x = true) (h : c ++ x :: (n ++ e) = c' ++ x' :: (n' ++ e')) :
    n = n' := by
  have hlast {n : Text} (hn : IsName n) : ∃ k y, n = k ++ [y] ∧ isBlank y = false ∧
      ∀ z ∈ k, isNameChar z = true := by
    rcases List.eq_nil_or_concat n with hnil | ⟨k, y, rfl⟩
    · exact absurd hnil hn.ne_nil
    · have hchar := hn.isNameChar
      rw [List.concat_eq_append, List.forall_mem_append] at hchar
      exact ⟨k, y, List.concat_eq_append,
        not_isBlank_of_isNameChar (hchar.2 y List.mem_cons_self), hchar.1⟩
  obtain ⟨k, y, rfl, hy, hk⟩ := hlast hn
  obtain ⟨k', y', rfl, hy', hk'⟩ := hlast hn'
  have hsplit : (c ++ x :: k) ++ y :: e = (c' ++ x' :: k') ++ y' :: e' := by simpa using h
  obtain ⟨hnames, rfl, -⟩ := Text.eq_of_last_of_other he he' hy hy' hsplit
  obtain ⟨-, -, rfl⟩ := Text.eq_of_last_of_other hk hk' (not_isNameChar_of_isBlank hx)
    (not_isNameChar_of_isBlank hx') hnames
  rfl

/-- A gap ends with a blank. -/
theorem IsGap.exists_concat {g : Text} (h : IsGap g) : ∃ k x, g = k ++ [x] ∧ isBlank x = true := by
  rcases List.eq_nil_or_concat g with hnil | ⟨k, x, rfl⟩
  · exact absurd hnil h.ne_nil
  · rw [List.concat_eq_append]
    exact ⟨k, x, rfl, h.blank x (by simp)⟩

theorem IsHead.name_eq (hh : f.IsHead i n h) (hh' : f.IsHead i' n' r) (he : h = a ++ r) :
    n = n' := by
  cases f with
  | arrow =>
    obtain ⟨k, g, e, y, rfl, -, hg, hn, hblank, hy⟩ := hh
    obtain ⟨k', g', e', y', rfl, -, hg', hn', hblank', hy'⟩ := hh'
    obtain ⟨g, x, rfl, hx⟩ := hg.exists_concat
    obtain ⟨g', x', rfl, hx'⟩ := hg'.exists_concat
    have hother {y : Text} (hy : ∀ x ∈ y, isSign x = false) : ∀ x ∈ y, (x != '=') = true :=
      Text.bne_of_notMem fun hmem => absurd (hy _ hmem) (by decide)
    have hsplit : (i ++ (k ++ g)) ++ x :: (n ++ e) ++ '=' :: y =
        (a ++ (i' ++ (k' ++ g'))) ++ x' :: (n' ++ e') ++ '=' :: y' := by simpa using he
    have hnames := (Text.eq_of_last_of_other (hother hy) (hother hy') rfl rfl hsplit).1
    exact name_unique hx hx' hn hn' hblank hblank' hnames
  | function =>
    obtain ⟨k, g, e, rfl, -, hg, hn, hblank⟩ := hh
    obtain ⟨k', g', e', rfl, -, hg', hn', hblank'⟩ := hh'
    obtain ⟨g, x, rfl, hx⟩ := hg.exists_concat
    obtain ⟨g', x', rfl, hx'⟩ := hg'.exists_concat
    have hsplit : (i ++ (k ++ ("function".toList ++ g))) ++ x :: (n ++ e) =
        (a ++ (i' ++ (k' ++ ("function".toList ++ g')))) ++ x' :: (n' ++ e') := by simpa using he
    exact name_unique hx hx' hn hn' hblank hblank' hsplit

/-- What stands behind the first equals sign of an arrow function begins no arrow. -/
theorem IsEmpty.ne_arrow (he : arrow.IsEmpty i n h ps z b) {l : Text} (hl : '=' ∉ l) :
    l ++ '=' :: '>' :: s ≠ h ++ '(' :: r := by
  obtain ⟨k, g, e, y, rfl, hk, hg, hn, hblank, hy⟩ := he.head
  have hnone : ∀ x ∈ i ++ (k ++ (g ++ (n ++ e))), isSign x = false := by
    simp only [List.forall_mem_append]
    exact ⟨he.isSign_indent, isSign_of_mem_declarators hk, hg.isSign, isSign_of_isName hn,
      fun x hx => isSign_of_isBlank (hblank x hx)⟩
  intro hshare
  have hsplit : l ++ '=' :: ('>' :: s) =
      (i ++ (k ++ (g ++ (n ++ e)))) ++ '=' :: (y ++ '(' :: r) := by
    simpa using hshare
  have hrest := (Text.eq_of_first_of_notMem hl
    (fun hmem => absurd (hnone _ hmem) (by decide)) hsplit).2
  cases y with
  | nil => exact absurd (List.cons.inj hrest).1 (by decide)
  | cons c y =>
    obtain rfl := (List.cons.inj hrest).1
    exact absurd (hy _ List.mem_cons_self) (by decide)

/-- Behind the parameters of an empty handler no other of its form begins. -/
theorem IsEmpty.ne_of_tail {h' ps' z' b' l : Text} (he : f.IsEmpty i n h ps z b)
    (he' : f.IsEmpty i' n' h' ps' z' b') (hz : z = a ++ l) :
    l ++ '{' :: s ≠ written h' ps' z' b' ++ r := by
  intro hshare
  have hopens : Opens (l ++ '{' :: s) := by
    rw [hshare, written, List.append_assoc]
    exact he'.opens _
  cases f with
  | arrow =>
    obtain ⟨y, e, rfl, hy, hblank⟩ := he.tail
    have hne {d : Text} (hd : '=' ∉ d) : d ++ '=' :: '>' :: (e ++ '{' :: s) ≠
        written h' ps' z' b' ++ r := by
      have := he'.ne_arrow (s := e ++ '{' :: s)
        (r := ps' ++ ')' :: (z' ++ '{' :: (b' ++ ['}'])) ++ r) hd
      simpa [written] using this
    rcases List.append_eq_append_iff.mp hz.symm with ⟨d, rfl, rfl⟩ | ⟨d, rfl, hd⟩
    · refine hne (fun hmem => (hy _ (List.mem_append_right a hmem)).1 rfl) (d := d) ?_
      simpa using hshare
    · match d, hd with
      | [], hd =>
        refine hne List.not_mem_nil ?_
        rw [← hshare, ← List.nil_append l, ← hd]
        simp
      | ['='], hd =>
        obtain rfl : '>' :: e = l := (List.cons.inj hd).2
        exact not_opens_cons (by decide) (by decide) hopens
      | c :: c' :: d, hd =>
        obtain rfl : e = d ++ l := (List.cons.inj (List.cons.inj hd).2).2
        refine not_opens_blanks (fun x hx => hblank x ?_) (by decide) (by decide) hopens
        exact List.mem_append_right d hx
  | function =>
    refine not_opens_blanks (fun x hx => he.tail x ?_) (by decide) (by decide) hopens
    exact hz ▸ List.mem_append_right a hx

/-- From the first parenthesis on, a text is divided into the parts of an empty handler in one
way. -/
theorem IsEmpty.parts_unique {h' ps' z' b' : Text} (he : f.IsEmpty i n h ps z b)
    (he' : f.IsEmpty i' n' h' ps' z' b') (ha : '(' ∉ a)
    (hshare : a ++ '(' :: (ps ++ ')' :: (z ++ '{' :: (b ++ '}' :: v))) =
      h' ++ '(' :: (ps' ++ ')' :: (z' ++ '{' :: (b' ++ '}' :: r)))) :
    a = h' ∧ ps = ps' ∧ z = z' ∧ b = b' := by
  obtain ⟨rfl, hparams⟩ := Text.eq_of_first_of_notMem ha (he'.not_mem_head (by decide) (by decide))
    hshare
  obtain ⟨rfl, -, htail⟩ := Text.eq_of_first_of_other he.params he'.params (by decide) (by decide)
    hparams
  obtain ⟨rfl, hblock⟩ := Text.eq_of_first_of_notMem he.brace_not_mem_tail he'.brace_not_mem_tail
    htail
  obtain ⟨rfl, -⟩ := Text.eq_of_first_of_other he.blank he'.blank (by decide) (by decide) hblock
  exact ⟨rfl, rfl, rfl, rfl⟩

/-- An empty handler that begins inside of one of the same form ends with it and has its name. -/
theorem IsEmpty.ends_together {h' ps' z' b' : Text} (he : f.IsEmpty i n h ps z b)
    (he' : f.IsEmpty i' n' h' ps' z' b') (hw : written h ps z b = a ++ w) (hne : w ≠ [])
    (hshare : w ++ v = written h' ps' z' b' ++ r) : w = written h' ps' z' b' ∧ n = n' := by
  have hopens : Opens (w ++ v) := by
    rw [hshare, written, List.append_assoc]
    exact he'.opens _
  rcases Text.cases_of_append_cons_eq hw with ⟨d, rfl, rfl⟩ | ⟨d, -, hd⟩
  · -- in front of the parameters
    have hd : '(' ∉ d := fun hmem =>
      he.not_mem_head (by decide) (by decide) (List.mem_append_right a hmem)
    obtain ⟨rfl, rfl, rfl, rfl⟩ := he.parts_unique (v := v) (r := r) he' hd (by
      simpa [written] using hshare)
    exact ⟨rfl, he.head.name_eq he'.head rfl⟩
  · exfalso
    rcases Text.cases_of_append_cons_eq hd with ⟨e, rfl, rfl⟩ | ⟨e, -, he₁⟩
    · -- in the parameters
      have hsplit : e ++ ')' :: (z ++ '{' :: (b ++ ['}']) ++ v) =
          h' ++ '(' :: (ps' ++ ')' :: (z' ++ '{' :: (b' ++ ['}'])) ++ r) := by
        simpa [written] using hshare
      have hfirst := Text.eq_of_first_of_other
        (fun x hx => he.params x (List.mem_append_right d hx)) he'.noParen_head (by decide)
        (by decide) hsplit
      exact absurd hfirst.2.1 (by decide)
    rcases Text.cases_of_append_cons_eq he₁ with ⟨l, hl, rfl⟩ | ⟨k, -, hk⟩
    · -- behind the parameters
      exact he.ne_of_tail he' hl (by simpa using hshare)
    · -- in the block
      rcases Text.cases_of_append_cons_eq hk with ⟨l, rfl, rfl⟩ | ⟨l, -, hl⟩
      · have hblank : ∀ x ∈ l, isBlank x = true := fun x hx =>
          he.blank x (List.mem_append_right k hx)
        refine not_opens_blanks (c := '}') (t := v) hblank (by decide) (by decide) ?_
        simpa using hopens
      · exact hne (List.append_eq_nil_iff.mp hl.symm).2

end Form

end SnippetGate.Handler
