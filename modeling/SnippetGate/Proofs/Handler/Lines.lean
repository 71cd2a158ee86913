import SnippetGate.Proofs.Handler.State
import SnippetGate.Repair.EmptyBody

/-!
# The lines of a body

None of the lines that a handler gets is the beginning of a function, and the first one calls or
compares something. So no function begins inside of a filled block, and no empty one holds the
beginning of a filled block.
-/

namespace SnippetGate.Handler

open Pattern

variable {t i j k l r s a b collection name : Text} {c : Char} {vs : List StateVar}
  {lines : List Text}

/-- The words that the declaration of a function begins with. -/
def keywords : List Text := ["const", "let", "var", "function", "async"].map String.toList

/-- The declaration of a function can begin here: there is a keyword behind the indentation, and a
blank behind it. -/
def Opens (t : Text) : Prop :=
  ∃ i k x r, t = i ++ (k ++ x :: r) ∧ (∀ y ∈ i, Text.isIndent y = true) ∧ k ∈ keywords ∧
    isBlank x = true

/-- A single line with which no declaration begins. -/
structure IsLine (l : Text) : Prop where
  single : '\n' ∉ l
  closed : ¬ Opens (l ++ ['\n'])

/-- Whether a character is no parenthesis. -/
def noParen (c : Char) : Bool := c != '(' && c != ')'

/-- A line that opens a parenthesis and neither begins like the end of a block nor closes one
before. -/
def OpensParen (l : Text) : Prop :=
  ∃ x a b, l = x :: (a ++ '(' :: b) ∧ isBlank x = false ∧ x ≠ '}' ∧ ∀ y ∈ x :: a, noParen y = true

/-- What can stand in a filled block. -/
structure IsBody (lines : List Text) : Prop where
  first : ∃ l rest, lines = l :: rest ∧ OpensParen l
  line : ∀ l ∈ lines, IsLine l

/-! ### Beginnings of declarations -/

/-- What begins a keyword. -/
theorem exists_of_mem_keywords (h : k ∈ keywords) :
    ∃ x r, k = x :: r ∧ x ∈ "clvfa".toList ∧ ∀ y ∈ k, isNameChar y = true := by
  simp only [keywords, List.map_cons, List.map_nil, List.mem_cons, List.not_mem_nil, or_false] at h
  rcases h with rfl | rfl | rfl | rfl | rfl <;> exact ⟨_, _, rfl, by decide, by decide⟩

theorem isIndent_eq_false {c : Char} (h : c ∈ "clvfa".toList) : Text.isIndent c = false := by
  revert c
  decide

theorem opens_append_iff (hi : ∀ y ∈ i, Text.isIndent y = true) : Opens (i ++ t) ↔ Opens t := by
  constructor
  · rintro ⟨j, k, x, r, he, hj, hk, hx⟩
    obtain ⟨z, q, rfl, hz, -⟩ := exists_of_mem_keywords hk
    have htake := congrArg (List.takeWhile Text.isIndent) he
    rw [List.takeWhile_append_of_pos hi, List.takeWhile_append_of_pos hj, List.cons_append,
      List.takeWhile_cons_of_neg (by simp [isIndent_eq_false hz]), List.append_nil] at htake
    subst htake
    rw [List.append_assoc] at he
    refine ⟨t.takeWhile Text.isIndent, z :: q, x, r, List.append_cancel_left he, ?_, hk, hx⟩
    exact fun y hy => List.mem_takeWhile_imp hy
  · rintro ⟨j, k, x, r, rfl, hj, hk, hx⟩
    exact ⟨i ++ j, k, x, r, by simp, List.forall_mem_append.mpr ⟨hi, hj⟩, hk, hx⟩

/-- The first character of a declaration is an indentation or begins a keyword. -/
theorem not_opens_cons (hc : Text.isIndent c = false) (hc' : c ∉ "clvfa".toList) :
    ¬ Opens (c :: t) := by
  rintro ⟨j, k, x, r, he, hj, hk, -⟩
  obtain ⟨z, q, rfl, hz, -⟩ := exists_of_mem_keywords hk
  cases j with
  | nil =>
    obtain rfl := (List.cons.inj he).1
    exact hc' hz
  | cons y j =>
    obtain rfl := (List.cons.inj he).1
    rw [hj c List.mem_cons_self] at hc
    cases hc

/-- The first character of a declaration that is not blank begins a keyword. -/
theorem not_opens_blanks (hl : ∀ x ∈ l, isBlank x = true) (hc : isBlank c = false)
    (hc' : c ∉ "clvfa".toList) : ¬ Opens (l ++ c :: t) := by
  rintro ⟨j, k, x, r, he, hj, hk, -⟩
  obtain ⟨z, q, rfl, hz, hkey⟩ := exists_of_mem_keywords hk
  have hz' := not_isBlank_of_isNameChar (hkey z List.mem_cons_self)
  have hfirst := Text.eq_of_first_of_other hl (fun y hy => isBlank_of_isIndent (hj y hy)) hc hz' he
  exact hc' (hfirst.2.1 ▸ hz)

/-- A call is no declaration. -/
theorem not_opens_call (hn : IsName name) : ¬ Opens (name ++ '(' :: r) := by
  rintro ⟨j, k, x, s, he, hj, hk, hx⟩
  obtain ⟨-, -, -, -, hkey⟩ := exists_of_mem_keywords hk
  cases j with
  | nil =>
    obtain ⟨-, rfl, -⟩ := Text.eq_of_first_of_other hn.isNameChar hkey (by decide)
      (not_isNameChar_of_isBlank hx) he
    exact absurd hx (by decide)
  | cons y j =>
    obtain ⟨z, q, rfl, hz, -⟩ := hn
    obtain rfl := (List.cons.inj he).1
    have hblank := not_isBlank_of_isNameChar (isNameChar_of_isNameStart hz)
    rw [isBlank_of_isIndent (hj z List.mem_cons_self)] at hblank
    cases hblank

/-- A declaration begins on one line. -/
theorem Opens.of_line (h : Opens (l ++ '\n' :: r)) (hl : '\n' ∉ l) : Opens (l ++ ['\n']) := by
  obtain ⟨j, k, x, s, he, hj, hk, hx⟩ := h
  have hnot : '\n' ∉ j ++ k := by
    obtain ⟨-, -, -, -, hkey⟩ := exists_of_mem_keywords hk
    refine fun hmem => ?_
    rcases List.mem_append.mp hmem with hmem | hmem
    · exact absurd (hj _ hmem) (by decide)
    · exact absurd (hkey _ hmem) (by decide)
  rw [← List.append_assoc] at he
  obtain ⟨d, rfl, hd⟩ := Text.exists_of_append_cons_eq he hnot
  cases d with
  | nil =>
    obtain rfl := (List.cons.inj hd).1
    exact ⟨j, k, _, [], by simp, hj, hk, hx⟩
  | cons y d =>
    obtain rfl := (List.cons.inj hd).1
    exact ⟨j, k, x, d ++ ['\n'], by simp, hj, hk, hx⟩

/-! ### The lines that go to the next position -/

theorem not_mem_of_isName {n : Text} (hn : IsName n) {x : Char} (hx : isNameChar x = false) :
    x ∉ n := fun h => by
  rw [hn.isNameChar x h] at hx
  cases hx

theorem isLine_callLine {f x : Text} (hf : IsName f) (hx : '\n' ∉ x) : IsLine (callLine f x) where
  single := by
    have := not_mem_of_isName hf (x := '\n') (by decide)
    simp [callLine, this, hx]
  closed := by
    have := not_opens_call (r := x ++ ");".toList ++ ['\n']) hf
    simpa [callLine] using this

theorem isLine_advanceLine {v : StateVar} (hname : IsName v.name) (hsetter : IsName v.setter) :
    IsLine (advanceLine v) := by
  refine isLine_callLine hsetter ?_
  have := not_mem_of_isName hname (x := '\n') (by decide)
  simp [this]

theorem isLine_setLine {v : StateVar} (hsetter : IsName v.setter) : IsLine (setLine v) :=
  isLine_callLine hsetter (by decide)

theorem IsLine.nested (h : IsLine l) : IsLine (nested l) where
  single := by simp [Handler.nested, h.single]
  closed ho := by
    have hi : ∀ y ∈ "  ".toList, Text.isIndent y = true := by decide
    exact h.closed ((opens_append_iff hi).mp ho)

/-- No keyword begins with the character that the line begins with. -/
theorem isLine_cons (hc : Text.isIndent c = false) (hc' : c ∉ "clvfa".toList)
    (hl : '\n' ∉ c :: l) : IsLine (c :: l) where
  single := hl
  closed := not_opens_cons hc hc'

theorem opensParen_callLine {f x : Text} (hf : IsName f) : OpensParen (callLine f x) := by
  obtain ⟨z, r, rfl, hz, -⟩ := id hf
  refine ⟨z, r, x ++ ");".toList, by simp [callLine],
    not_isBlank_of_isNameChar (isNameChar_of_isNameStart hz), ?_, fun y hy => ?_⟩
  · rintro rfl
    exact absurd hz (by decide)
  · rw [noParen, Bool.and_eq_true, bne_iff_ne, bne_iff_ne]
    have hchar := hf.isNameChar y hy
    constructor <;> rintro rfl <;> exact absurd hchar (by decide)

/-- What a handler gets that goes to the next position. -/
theorem isBody_advanceLines (hvs : ∀ v ∈ vs, IsName v.name ∧ IsName v.setter)
    (hc : collection = [] ∨ IsName collection) (h : advanceLines vs collection = some lines) :
    IsBody lines := by
  obtain ⟨index, hindex, rfl⟩ := Option.map_eq_some_iff.mp h
  obtain ⟨hname, hsetter⟩ := hvs index (StateVar.mem_of_index? hindex)
  have hstep := isLine_advanceLine hname hsetter
  by_cases hempty : collection = []
  · subst hempty
    exact ⟨⟨_, _, rfl, opensParen_callLine hsetter⟩, List.forall_mem_singleton.mpr hstep⟩
  · have hsplit : "if (".toList ++ index.name ++ " < ".toList ++ collection ++
        ".length - 1) \x7b".toList = 'i' :: ("f ".toList ++ '(' :: (index.name ++ " < ".toList ++
        collection ++ ".length - 1) \x7b".toList)) := rfl
    have hhead : IsLine ("if (".toList ++ index.name ++ " < ".toList ++ collection ++
        ".length - 1) \x7b".toList) := by
      have hn := not_mem_of_isName hname (x := '\n') (by decide)
      have hm := not_mem_of_isName (hc.resolve_left hempty) (x := '\n') (by decide)
      rw [hsplit]
      exact isLine_cons (by decide) (by decide) (by simp [hn, hm])
    have hparen : OpensParen ("if (".toList ++ index.name ++ " < ".toList ++ collection ++
        ".length - 1) \x7b".toList) := ⟨_, _, _, hsplit, by decide, by decide, by decide⟩
    have hend : IsLine ['}'] := isLine_cons (by decide) (by decide) (by decide)
    rw [if_neg (by simpa using hempty)]
    cases hfinish : StateVar.finish? vs with
    | none =>
      refine ⟨⟨_, _, rfl, hparen⟩, ?_⟩
      simp only [List.forall_mem_cons]
      exact ⟨hhead, hstep.nested, hend, nofun⟩
    | some finish =>
      have hset := isLine_setLine (hvs finish (StateVar.mem_of_finish? hfinish)).2
      have helse : IsLine "\x7d else \x7b".toList :=
        isLine_cons (by decide) (by decide) (by decide)
      refine ⟨⟨_, _, rfl, hparen⟩, ?_⟩
      simp only [List.forall_mem_cons]
      exact ⟨hhead, hstep.nested, helse, hset.nested, hend, nofun⟩

theorem isName_of_mem_stateOf (t : Text) :
    ∀ v ∈ (Repair.stateOf t).1, IsName v.name ∧ IsName v.setter := fun _ hv =>
  ⟨(StateVar.declared_of_mem_findAll hv).1, (StateVar.declared_of_mem_findAll hv).2.1⟩

/-- What is taken as the collection stands before a length that is taken. -/
theorem collection_stateOf (t : Text) : (Repair.stateOf t).2 = [] ∨ IsName (Repair.stateOf t).2 ∧
    ∃ u v, t = u ++ ((Repair.stateOf t).2 ++ (".length".toList ++ v)) := by
  cases hn : StateVar.collection? t (StateVar.findAll t) with
  | none => exact .inl (congrArg (Option.getD · []) hn)
  | some n =>
    have hstate : (Repair.stateOf t).2 = n := congrArg (Option.getD · []) hn
    exact .inr (hstate ▸ StateVar.exists_of_collection? hn)

theorem advanceLines_of_handlerLines? (h : Repair.handlerLines? vs collection name = some lines) :
    advanceLines vs collection = some lines := by
  rw [Repair.handlerLines?] at h
  split at h
  · cases h
  · next role _ =>
    cases role
    · exact h
    · exact h
    · cases h
    · cases h

theorem isBody_of_handlerLines? (h : Repair.handlerLines? (Repair.stateOf t).1 (Repair.stateOf t).2
    name = some lines) : IsBody lines :=
  isBody_advanceLines (isName_of_mem_stateOf t) ((collection_stateOf t).imp_right And.left)
    (advanceLines_of_handlerLines? h)

/-! ### Filled blocks -/

/-- The lines of a block. -/
def rows (lines : List Text) (i : Text) : Text :=
  lines.flatMap fun line => i ++ nested line ++ ['\n']

theorem block_eq (lines : List Text) (i : Text) :
    block lines i = '{' :: '\n' :: (rows lines i ++ (i ++ ['}'])) := by
  simp [block, rows]

/-- A filled block goes on with a parenthesis, not with its end. -/
theorem IsBody.exists_block (hb : IsBody lines) (hi : ∀ y ∈ i, Text.isIndent y = true) :
    ∃ k x a r, block lines i = '{' :: (k ++ x :: (a ++ '(' :: r)) ∧ (∀ y ∈ k, isBlank y = true) ∧
      isBlank x = false ∧ x ≠ '}' ∧ ∀ y ∈ x :: a, noParen y = true := by
  obtain ⟨_, rest, rfl, x, a, b, rfl, hx, hx', ha⟩ := hb.first
  refine ⟨'\n' :: (i ++ "  ".toList), x, a, b ++ '\n' :: (rows rest i ++ (i ++ ['}'])), ?_, ?_, hx,
    hx', ha⟩
  · rw [block_eq]
    simp [rows, nested]
  · refine List.forall_mem_cons.mpr ⟨by decide, List.forall_mem_append.mpr ⟨?_, by decide⟩⟩
    exact fun y hy => isBlank_of_isIndent (hi y hy)

/-- A text that ends with a line break, if it is not empty, and the rest of it behind its first
line. -/
theorem exists_of_line_append (h : l ++ '\n' :: r = a ++ b) (hl : '\n' ∉ l)
    (ha : ∀ x ∈ a.getLast?, x = '\n') :
    a = [] ∨ ∃ d, a = l ++ '\n' :: d ∧ r = d ++ b ∧ ∀ x ∈ d.getLast?, x = '\n' := by
  by_cases hne : a = []
  · exact .inl hne
  refine .inr ?_
  have hlast : a.getLast hne = '\n' := ha _ (List.getLast?_eq_some_getLast hne)
  have hsplit := List.dropLast_append_getLast hne
  rw [hlast] at hsplit
  rw [← hsplit, List.append_assoc, List.singleton_append] at h
  obtain ⟨k, hk, hr⟩ := Text.exists_of_append_cons_eq h.symm hl
  cases k with
  | nil =>
    obtain rfl := (List.cons.inj hr).2
    exact ⟨[], by rw [← hsplit, hk, List.append_nil], rfl, nofun⟩
  | cons y k =>
    obtain ⟨rfl, rfl⟩ := List.cons.inj hr
    refine ⟨k ++ ['\n'], by rw [← hsplit, hk]; simp, by simp, fun x hx => ?_⟩
    rw [List.getLast?_concat] at hx
    exact (Option.some.inj hx).symm

theorem not_opens_rows (hl : ∀ l ∈ lines, IsLine l) (hi : ∀ y ∈ i, Text.isIndent y = true)
    (h : rows lines i ++ (i ++ ['}']) = a ++ b) (ha : ∀ x ∈ a.getLast?, x = '\n') (hne : b ≠ []) :
    ¬ Opens (b ++ s) := by
  have hbreak : '\n' ∉ i := fun hmem => absurd (hi _ hmem) (by decide)
  induction lines generalizing a with
  | nil =>
    have hnil : a = [] := by
      by_contra hn
      have hlast := ha _ (List.getLast?_eq_some_getLast hn)
      have hmem : '\n' ∈ i ++ ['}'] := by
        have : a.getLast hn ∈ a ++ b := List.mem_append_left b (List.getLast_mem hn)
        rwa [hlast, ← h] at this
      rcases List.mem_append.mp hmem with hmem | hmem
      · exact hbreak hmem
      · exact absurd hmem (by decide)
    subst hnil
    obtain rfl : i ++ ['}'] = b := h
    rw [List.append_assoc, opens_append_iff hi]
    exact not_opens_cons (by decide) (by decide)
  | cons l lines ih =>
    obtain ⟨hline, hlines⟩ := List.forall_mem_cons.mp hl
    have hsingle : '\n' ∉ i ++ nested l := by simp [hbreak, hline.nested.single]
    have hrows : rows (l :: lines) i ++ (i ++ ['}']) =
        (i ++ nested l) ++ '\n' :: (rows lines i ++ (i ++ ['}'])) := by simp [rows]
    rw [hrows] at h
    rcases exists_of_line_append h hsingle ha with rfl | ⟨d, -, hd, hlast⟩
    · obtain rfl : (i ++ nested l) ++ '\n' :: (rows lines i ++ (i ++ ['}'])) = b := h
      rw [List.append_assoc i, List.append_assoc i, opens_append_iff hi, List.append_assoc,
        List.cons_append]
      exact fun ho => hline.nested.closed (ho.of_line hline.nested.single)
    · exact ih hlines hd hlast

/-- No declaration begins inside of a filled block. -/
theorem IsBody.not_opens (hb : IsBody lines) (hi : ∀ y ∈ i, Text.isIndent y = true)
    (h : block lines i = a ++ b) (ha : ∀ x ∈ a.getLast?, x = '\n') (hne : b ≠ []) :
    ¬ Opens (b ++ s) := by
  have hblock : ['{'] ++ '\n' :: (rows lines i ++ (i ++ ['}'])) = a ++ b := by
    rw [← h, block_eq]
    rfl
  rcases exists_of_line_append hblock (by decide) ha with rfl | ⟨d, -, hd, hlast⟩
  · obtain rfl : ['{'] ++ '\n' :: (rows lines i ++ (i ++ ['}'])) = b := hblock
    exact not_opens_cons (by decide) (by decide)
  · exact not_opens_rows hb.line hi hd hlast hne

end SnippetGate.Handler
