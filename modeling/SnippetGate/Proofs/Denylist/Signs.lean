import SnippetGate.Denylist
import SnippetGate.Proofs.Pattern.Leads

/-!
# The signs of denied code

The deny list in terms of words: a text is denied for a word and for what stands around it. What
has to follow a word is read one character at a time, so that two continuations can be compared
state by state. One pattern reads on to a second word on the same line, and stands apart.
-/

namespace SnippetGate

open Pattern

/-- What has to follow a denied word, as far as it is not yet read. -/
inductive Sequel where
  /-- Nothing more. -/
  | met
  /-- What is no longer possible. -/
  | missed
  /-- No word character. -/
  | edge
  /-- Blanks and an equals sign. -/
  | assignment
  /-- Blanks and an opening parenthesis. -/
  | call
  /-- Blanks, an opening parenthesis, blanks and a quote. -/
  | timer
  /-- Blanks and a quote. -/
  | code
  /-- A blank and then a module. -/
  | gap
  /-- Blanks and a quote, with no trusted name behind it. -/
  | module
  /-- Something else than the trusted name and a quote, of which `n` characters are read. -/
  | other (n : Nat)
  deriving DecidableEq

/-- The name of the trusted module. -/
def trustedModule : Text := "react".toList

/-- Whether a character can delimit the name of a module. -/
def isModuleQuote (c : Char) : Bool := c == '\x22' || c == '\x27'

/-- Whether a character can begin a string. -/
def isCodeQuote (c : Char) : Bool := c == '\x22' || c == '\x27' || c == '\x60'

namespace Sequel

/-- What is left after one more character: `next` after one of the class, and the same after a
blank. -/
def seek (s : Sequel) (p : Char → Bool) (next : Sequel) (x : Char) : Sequel :=
  if p x then next else if isBlank x then s else missed

/-- What is left after one more character. -/
def step : Sequel → Char → Sequel
  | met, _ => met
  | missed, _ => missed
  | edge, x => if isWord x then missed else met
  | assignment, x => seek assignment (· == '=') met x
  | call, x => seek call (· == '(') met x
  | timer, x => seek timer (· == '(') code x
  | code, x => seek code isCodeQuote met x
  | gap, x => if isBlank x then module else missed
  | module, x => seek module isModuleQuote (other 0) x
  | other n, x =>
    match trustedModule[n]? with
    | none => if isModuleQuote x then missed else met
    | some y => if x = y then other (n + 1) else met

/-- Whether the end of the text meets it. -/
def atEnd : Sequel → Bool
  | met | edge | other _ => true
  | _ => false

/-- Whether a text meets it. -/
def Holds (s : Sequel) (t : Text) : Prop := (t.foldl step s).atEnd = true

variable {s : Sequel} {t u : Text} {x : Char}

theorem holds_nil : s.Holds [] ↔ s.atEnd = true := Iff.rfl

theorem holds_cons : s.Holds (x :: t) ↔ (s.step x).Holds t := Iff.rfl

theorem holds_append : s.Holds (t ++ u) ↔ (t.foldl step s).Holds u := by
  rw [Holds, Holds, List.foldl_append]

@[simp] theorem foldl_step_met (t : Text) : t.foldl step met = met := by
  induction t with
  | nil => rfl
  | cons x t ih => exact ih

@[simp] theorem foldl_step_missed (t : Text) : t.foldl step missed = missed := by
  induction t with
  | nil => rfl
  | cons x t ih => exact ih

@[simp] theorem holds_met : met.Holds t := by simp [Holds, atEnd]

@[simp] theorem not_holds_missed : ¬ missed.Holds t := by simp [Holds, atEnd]

/-! ### Blanks, then a character of a class -/

/-- A state that leaves out blanks is met behind them. -/
theorem holds_iff_of_seek {next : Sequel} {p : Char → Bool} (hs : s.step = s.seek p next)
    (hend : s.atEnd = false) (hp : ∀ x, p x = true → isBlank x = false) :
    s.Holds t ↔ ∃ q x r, t = q ++ x :: r ∧ (∀ y ∈ q, isBlank y = true) ∧ p x = true ∧
      next.Holds r := by
  induction t with
  | nil => simp [holds_nil, hend]
  | cons y t ih =>
    rw [holds_cons, hs, seek]
    split
    · next hy =>
      constructor
      · exact fun h => ⟨[], y, t, rfl, nofun, hy, h⟩
      · rintro ⟨q, x, r, he, hq, hx, h⟩
        cases q with
        | nil =>
          obtain ⟨rfl, rfl⟩ := List.cons.inj he
          exact h
        | cons z q =>
          obtain ⟨rfl, rfl⟩ := List.cons.inj he
          exact absurd (hq y List.mem_cons_self) (by simp [hp y hy])
    · next hy =>
      split
      · next hb =>
        rw [ih]
        constructor
        · rintro ⟨q, x, r, rfl, hq, hx, h⟩
          exact ⟨y :: q, x, r, rfl, List.forall_mem_cons.mpr ⟨hb, hq⟩, hx, h⟩
        · rintro ⟨q, x, r, he, hq, hx, h⟩
          cases q with
          | nil =>
            obtain ⟨rfl, rfl⟩ := List.cons.inj he
            exact absurd hx hy
          | cons z q =>
            obtain ⟨rfl, rfl⟩ := List.cons.inj he
            exact ⟨q, x, r, rfl, (List.forall_mem_cons.mp hq).2, hx, h⟩
      · next hb =>
        simp only [not_holds_missed, false_iff, not_exists, not_and]
        rintro q x r he hq hx -
        cases q with
        | nil =>
          obtain ⟨rfl, rfl⟩ := List.cons.inj he
          exact hy hx
        | cons z q =>
          obtain ⟨rfl, rfl⟩ := List.cons.inj he
          exact hb (hq y List.mem_cons_self)

theorem not_isBlank_of_beq {c x : Char} (hc : isBlank c = false) (h : (x == c) = true) :
    isBlank x = false := by
  obtain rfl : x = c := by simpa using h
  exact hc

theorem not_isBlank_of_isModuleQuote (h : isModuleQuote x = true) : isBlank x = false := by
  simp only [isModuleQuote, Bool.or_eq_true, beq_iff_eq] at h
  rcases h with rfl | rfl <;> rfl

theorem not_isBlank_of_isCodeQuote (h : isCodeQuote x = true) : isBlank x = false := by
  simp only [isCodeQuote, Bool.or_eq_true, beq_iff_eq] at h
  rcases h with (rfl | rfl) | rfl <;> rfl

/-- What a pattern is for: a piece begins at a place just if the text from there meets the
sequel. -/
def IsReadBy (s : Sequel) (a : Pattern) : Prop :=
  ∀ n l t κ, (a.Leads ⟨⟨n, l, t⟩, κ⟩ fun _ => True) ↔ s.Holds t

theorem met_isReadBy : met.IsReadBy .empty := fun _ _ _ _ => by simp [leads_empty]

theorem IsReadBy.seek {next : Sequel} {p : Char → Bool} {a : Pattern} (hs : s.step = s.seek p next)
    (hend : s.atEnd = false) (hp : ∀ x, p x = true → isBlank x = false)
    (h : next.IsReadBy a) : s.IsReadBy (seq blanks (seq (.one p) a)) := by
  intro n l t κ
  rw [holds_iff_of_seek hs hend hp, blanks, many, leads_seq, leads_run]
  constructor
  · rintro ⟨q, r, rfl, hq, hl⟩
    obtain ⟨x, r, rfl, hx, hl⟩ := leads_one.mp (leads_seq.mp hl)
    exact ⟨q, x, r, rfl, hq, hx, (h ..).mp hl⟩
  · rintro ⟨q, x, r, rfl, hq, hx, hl⟩
    exact ⟨q, x :: r, rfl, hq, leads_seq.mpr (leads_one.mpr ⟨x, r, rfl, hx, (h ..).mpr hl⟩)⟩

theorem IsReadBy.of_seq_empty {a : Pattern} (h : s.IsReadBy (seq blanks (seq a .empty))) :
    s.IsReadBy (seq blanks a) := by
  intro n l t κ
  rw [← h n l t κ, leads_seq, leads_seq]
  simp only [leads_seq, leads_empty]

theorem assignment_isReadBy : assignment.IsReadBy (all [blanks, char '=']) :=
  (met_isReadBy.seek rfl rfl fun _ => not_isBlank_of_beq (by decide)).of_seq_empty

theorem call_isReadBy : call.IsReadBy (all [blanks, char '(']) :=
  (met_isReadBy.seek rfl rfl fun _ => not_isBlank_of_beq (by decide)).of_seq_empty

theorem code_isReadBy : code.IsReadBy (all [blanks, .one isCodeQuote]) :=
  (met_isReadBy.seek rfl rfl fun _ => not_isBlank_of_isCodeQuote).of_seq_empty

theorem timer_isReadBy : timer.IsReadBy (all [blanks, char '(', blanks, .one isCodeQuote]) :=
  code_isReadBy.seek rfl rfl fun _ => not_isBlank_of_beq (by decide)

theorem other_holds_iff {n : Nat} :
    (other n).Holds t ↔ ¬ ∃ x u, t = trustedModule.drop n ++ x :: u ∧ isModuleQuote x = true := by
  induction h : trustedModule.drop n generalizing n t with
  | nil =>
    have hn : trustedModule[n]? = none :=
      List.getElem?_eq_none (List.drop_eq_nil_iff.mp h)
    cases t with
    | nil => simp [holds_nil, atEnd]
    | cons x t =>
      rw [holds_cons, step, hn]
      cases hx : isModuleQuote x <;> simp_all
  | cons y r ih =>
    have hn : trustedModule[n]? = some y := by
      rw [← List.head?_drop, h, List.head?_cons]
    have hr : trustedModule.drop (n + 1) = r := by
      rw [← List.tail_drop, h, List.tail_cons]
    cases t with
    | nil => simp [holds_nil, atEnd]
    | cons x t =>
      rw [holds_cons, step, hn]
      dsimp only
      split
      · next hx => simp [hx, ih hr]
      · next hx => simp [hx]

theorem module_isReadBy :
    module.IsReadBy (seq blanks (DenyCategory.otherModule trustedModule)) := by
  refine IsReadBy.seek rfl rfl (fun _ => not_isBlank_of_isModuleQuote) fun n l t κ => ?_
  rw [leads_notAhead, other_holds_iff]
  have h : (seq (Pattern.text trustedModule) DenyCategory.moduleQuote).Leads ⟨⟨n, l, t⟩, κ⟩
      (fun _ => True) ↔ ∃ x u, t = trustedModule ++ x :: u ∧ isModuleQuote x = true := by
    rw [leads_seq, leads_text]
    constructor
    · rintro ⟨r, rfl, hl⟩
      obtain ⟨x, u, rfl, hx, -⟩ := leads_one.mp hl
      exact ⟨x, u, rfl, hx⟩
    · rintro ⟨x, u, rfl, hx⟩
      exact ⟨x :: u, rfl, leads_one.mpr ⟨x, u, rfl, hx, trivial⟩⟩
  rw [h, and_true, List.drop_zero]

theorem gap_isReadBy : gap.IsReadBy (seq Pattern.gap (DenyCategory.otherModule trustedModule)) := by
  intro n l t κ
  rw [leads_seq, Pattern.gap, many1, leads_seq, leads_one]
  have h (n : Nat) (l t : Text) := module_isReadBy n l t κ
  simp only [leads_seq, blanks, many] at h
  simp only [h]
  cases t with
  | nil => simp [holds_nil, atEnd]
  | cons x t =>
    rw [holds_cons, step]
    constructor
    · rintro ⟨y, r, he, hy, hr⟩
      obtain ⟨rfl, rfl⟩ := List.cons.inj he
      rwa [if_pos hy]
    · intro hr
      split at hr
      · next hx => exact ⟨x, t, rfl, hx, hr⟩
      · exact absurd hr not_holds_missed

end Sequel

/-! ### The signs -/

/-- A denied word, with what may not stand before it and what has to follow it. -/
structure Sign where
  /-- The characters that may not stand before the word. -/
  apart : Char → Bool
  word : Text
  sequel : Sequel

namespace Sign

/-- No character is forbidden before the word. -/
def anywhere : Char → Bool := fun _ => false

/-- No name may go on before the word. -/
def afterName : Char → Bool := isNameChar

/-- No name and no member access may go on before the word. -/
def afterMember : Char → Bool := fun c => isNameChar c || c == '.'

/-- The sign stands at a place of a text, between `a` and `b`. -/
def Stands (s : Sign) (a b : Text) : Prop :=
  (∀ x ∈ a.getLast?, s.apart x = false) ∧ ∃ r, b = s.word ++ r ∧ s.sequel.Holds r

/-- What a pattern is for: a piece begins just at the places where the sign stands. -/
def IsReadBy (s : Sign) (p : Pattern) : Prop :=
  ∀ n a b κ, (p.Leads ⟨⟨n, List.reverse a, b⟩, κ⟩ fun _ => True) ↔ s.Stands a b

theorem isReadBy_text (w : Text) : (⟨anywhere, w, .met⟩ : Sign).IsReadBy (Pattern.text w) := by
  intro n a b κ
  simp [Stands, leads_text, anywhere]

theorem IsReadBy.of_sequel {q : Sequel} {p : Pattern} (h : q.IsReadBy p) (w : Text) :
    (⟨anywhere, w, q⟩ : Sign).IsReadBy (.seq (Pattern.text w) p) := by
  intro n a b κ
  have hp (m : Nat) (l r : Text) := h m l r κ
  simp only [leads_seq, leads_text, hp, Stands, anywhere, implies_true, true_and]

theorem IsReadBy.notAfter {s : Sign} {p : Pattern} (h : s.IsReadBy p) (hs : s.apart = anywhere)
    (q : Char → Bool) : (⟨q, s.word, s.sequel⟩ : Sign).IsReadBy (.seq (.notAfter q) p) := by
  intro n a b κ
  simp only [leads_seq, leads_notAfter, h n a b κ, Stands, hs, anywhere, implies_true, true_and,
    List.head?_reverse]

/-- At the end of a word an edge is where no word character follows. -/
theorem isReadBy_edge {w : Text} {x : Char} (hx : isWord x = true) (q : Char → Bool) :
    (⟨q, w ++ [x], .edge⟩ : Sign).IsReadBy
      (.seq (.notAfter q) (.seq (Pattern.text (w ++ [x])) .wordEdge)) := by
  intro n a b κ
  have hedge (m : Nat) (l r : Text) :
      (⟨m, x :: l, r⟩ : Cursor).atWordEdge = true ↔ Sequel.edge.Holds r := by
    have ha : (⟨m, x :: l, r⟩ : Cursor).isAfter isWord = true := hx
    rw [Cursor.atWordEdge, ha]
    cases r with
    | nil => simp [Cursor.isBefore, Sequel.holds_nil, Sequel.atEnd]
    | cons y r =>
      have hb : (⟨m, x :: l, y :: r⟩ : Cursor).isBefore isWord = isWord y := rfl
      rw [hb, Sequel.holds_cons, Sequel.step]
      cases isWord y <;> simp
  simp only [leads_seq, leads_notAfter, leads_text, leads_wordEdge, List.reverse_append,
    List.reverse_singleton, List.cons_append, hedge, and_true, List.head?_reverse, Stands]

/-- A place where one of two patterns leads on after the same beginning. -/
theorem leads_notAfter_text_any {q : Char → Bool} {w u v : Text} {p : Pattern} {s : Progress}
    {K : Progress → Prop} :
    (all [.notAfter q, Pattern.text w, any [Pattern.text u, Pattern.text v], p]).Leads s K ↔
      (all [.notAfter q, Pattern.text (w ++ u), p]).Leads s K ∨
        (all [.notAfter q, Pattern.text (w ++ v), p]).Leads s K := by
  obtain ⟨⟨n, a, b⟩, κ⟩ := s
  simp only [all, any, leads_seq, leads_notAfter, leads_text, leads_alt, List.append_assoc,
    List.length_append, List.reverse_append]
  constructor
  · rintro ⟨h, r, rfl, ⟨t, rfl, hk⟩ | ⟨t, rfl, hk⟩⟩
    · exact .inl ⟨h, t, rfl, by simpa [Nat.add_assoc] using hk⟩
    · exact .inr ⟨h, t, rfl, by simpa [Nat.add_assoc] using hk⟩
  · rintro (⟨h, t, rfl, hk⟩ | ⟨h, t, rfl, hk⟩)
    · exact ⟨h, u ++ t, rfl, .inl ⟨t, rfl, by simpa [Nat.add_assoc] using hk⟩⟩
    · exact ⟨h, v ++ t, rfl, .inr ⟨t, rfl, by simpa [Nat.add_assoc] using hk⟩⟩

/-- The sign stands somewhere in a text. -/
def In (s : Sign) (t : Text) : Prop := ∃ a b, t = a ++ b ∧ s.Stands a b

theorem IsReadBy.in_iff {s : Sign} {p : Pattern} (h : s.IsReadBy p) {t : Text} :
    (p.search? t).isSome = true ↔ s.In t := by
  rw [isSome_search?]
  simp only [h _ _ _ _, In]

end Sign

namespace DenyCategory

open Sign

/-- The signs of a category: all but that of an import that goes on to its module. -/
def signs : DenyCategory → List Sign
  | htmlInjection =>
    [⟨anywhere, "dangerouslySetInnerHTML".toList, .met⟩,
      ⟨anywhere, ".innerHTML".toList, .assignment⟩,
      ⟨anywhere, ".outerHTML".toList, .assignment⟩,
      ⟨anywhere, "insertAdjacentHTML".toList, .met⟩]
  | codeEvaluation =>
    [⟨anywhere, "eval".toList, .call⟩,
      ⟨afterName, "setTimeout".toList, .timer⟩,
      ⟨afterName, "setInterval".toList, .timer⟩]
  | functionConstructor => [⟨afterName, "Function".toList, .call⟩]
  | domManipulation =>
    [⟨anywhere, "document.write".toList, .met⟩,
      ⟨anywhere, "window.location".toList, .met⟩,
      ⟨anywhere, "document.location".toList, .met⟩,
      ⟨anywhere, "window.open".toList, .call⟩,
      ⟨anywhere, "document.domain".toList, .met⟩]
  | browserStorage =>
    [⟨anywhere, "localStorage.".toList, .met⟩,
      ⟨anywhere, "sessionStorage.".toList, .met⟩,
      ⟨anywhere, "indexedDB".toList, .met⟩,
      ⟨anywhere, "document.cookie".toList, .met⟩]
  | networkAccess =>
    [⟨afterName, "fetch".toList, .call⟩,
      ⟨anywhere, "XMLHttpRequest".toList, .met⟩,
      ⟨afterName, "WebSocket".toList, .edge⟩,
      ⟨afterName, "EventSource".toList, .edge⟩,
      ⟨anywhere, "navigator.sendBeacon".toList, .met⟩,
      ⟨afterName, "axios.".toList, .met⟩]
  | externalImport =>
    [⟨afterMember, "import".toList, .gap⟩,
      ⟨afterMember, "import".toList, .call⟩,
      ⟨afterMember, "require".toList, .call⟩]

/-- Whether a pattern of the category has a piece in a text. -/
def Finds (c : DenyCategory) (t : Text) : Prop :=
  ∃ p ∈ c.patterns trustedModule, (p.search? t).isSome = true

/-- Whether a sign of the category stands in a text. -/
def Shows (c : DenyCategory) (t : Text) : Prop := ∃ s ∈ c.signs, s.In t

variable {t : Text}

theorem exists_iff_of_forall₂ {ss : List Sign} {ps : List Pattern}
    (h : List.Forall₂ Sign.IsReadBy ss ps) :
    (∃ p ∈ ps, (p.search? t).isSome = true) ↔ ∃ s ∈ ss, s.In t := by
  induction h with
  | nil => simp
  | cons h _ ih => simp only [List.mem_cons, or_and_right, exists_or, exists_eq_left, h.in_iff, ih]

theorem finds_htmlInjection : htmlInjection.Finds t ↔ htmlInjection.Shows t :=
  exists_iff_of_forall₂ <|
    .cons (isReadBy_text _) <|
    .cons (.of_sequel Sequel.assignment_isReadBy _) <|
    .cons (.of_sequel Sequel.assignment_isReadBy _) <|
    .cons (isReadBy_text _) .nil

theorem finds_functionConstructor : functionConstructor.Finds t ↔ functionConstructor.Shows t :=
  exists_iff_of_forall₂ <|
    .cons ((IsReadBy.of_sequel Sequel.call_isReadBy _).notAfter rfl _) .nil

theorem finds_domManipulation : domManipulation.Finds t ↔ domManipulation.Shows t :=
  exists_iff_of_forall₂ <|
    .cons (isReadBy_text _) <|
    .cons (isReadBy_text _) <|
    .cons (isReadBy_text _) <|
    .cons (.of_sequel Sequel.call_isReadBy _) <|
    .cons (isReadBy_text _) .nil

theorem finds_browserStorage : browserStorage.Finds t ↔ browserStorage.Shows t :=
  exists_iff_of_forall₂ <|
    .cons (isReadBy_text _) <|
    .cons (isReadBy_text _) <|
    .cons (isReadBy_text _) <|
    .cons (isReadBy_text _) .nil

theorem finds_networkAccess : networkAccess.Finds t ↔ networkAccess.Shows t :=
  exists_iff_of_forall₂ <|
    .cons ((IsReadBy.of_sequel Sequel.call_isReadBy _).notAfter rfl _) <|
    .cons (isReadBy_text _) <|
    .cons (isReadBy_edge (w := "WebSocke".toList) (x := 't') rfl _) <|
    .cons (isReadBy_edge (w := "EventSourc".toList) (x := 'e') rfl _) <|
    .cons (isReadBy_text _) <|
    .cons ((isReadBy_text _).notAfter rfl _) .nil

theorem finds_codeEvaluation : codeEvaluation.Finds t ↔ codeEvaluation.Shows t := by
  have timers (w : Text) : (⟨afterName, w, .timer⟩ : Sign).IsReadBy
      (Pattern.all [freshName, Pattern.text w,
        Pattern.all [blanks, char '(', blanks, .one isCodeQuote]]) :=
    (IsReadBy.of_sequel Sequel.timer_isReadBy w).notAfter rfl _
  have hset : (∃ a b, t = a ++ b ∧ (Pattern.all [freshName, word "set", any [word "Timeout",
      word "Interval"], blanks, char '(', blanks, .one isCodeQuote]).Leads
        ⟨⟨a.length, a.reverse, b⟩, []⟩ fun _ => True) ↔
      (⟨afterName, "setTimeout".toList, .timer⟩ : Sign).In t ∨
        (⟨afterName, "setInterval".toList, .timer⟩ : Sign).In t := by
    have h (a b : Text) := leads_notAfter_text_any (q := isNameChar) (w := "set".toList)
      (u := "Timeout".toList) (v := "Interval".toList)
      (p := Pattern.all [blanks, char '(', blanks, .one isCodeQuote])
      (s := ⟨⟨a.length, a.reverse, b⟩, []⟩) (K := fun _ => True)
    have h₁ (a b : Text) := timers "setTimeout".toList a.length a b []
    have h₂ (a b : Text) := timers "setInterval".toList a.length a b []
    simp only [Sign.In, ← exists_or, ← and_or_left, ← h₁, ← h₂]
    exact exists_congr fun a => exists_congr fun b => and_congr_right fun _ => h a b
  simp only [Finds, Shows, patterns, signs, List.mem_cons, or_and_right, exists_or,
    exists_eq_left, List.not_mem_nil, or_false]
  exact or_congr (IsReadBy.of_sequel Sequel.call_isReadBy _).in_iff (isSome_search?.trans hset)

end DenyCategory

/-! ### Imports that name what they import -/

/-- Whether a character can stand between the words of an import. -/
def isFlat (c : Char) : Bool := c != ';' && c != '\n'

/-- What can stand between the words of an import: blanks, and then more on the same line. -/
def Clause (m : Text) : Prop :=
  ∃ x g f, m = x :: (g ++ f) ∧ isBlank x = true ∧ (∀ y ∈ g, isBlank y = true) ∧
    ∀ y ∈ f, isFlat y = true

/-- The first word of an import. -/
def importWord : Text := "import".toList

/-- The second word of an import. -/
def fromWord : Text := "from".toList

/-- An import in a text: `a` stands before it, `m` between its words and `b` behind them. -/
structure Import (t a m b : Text) : Prop where
  eq : t = a ++ (importWord ++ (m ++ (fromWord ++ b)))
  clause : Clause m
  sequel : Sequel.gap.Holds b

/-- The text has an import of something else than the trusted module. -/
def Imports (t : Text) : Prop := ∃ a m b, Import t a m b

namespace DenyCategory

open Sign

variable {t : Text}

/-- The pattern of an import that goes on to its module. -/
def importFrom : Pattern :=
  Pattern.all [word "import", Pattern.gap, few isFlat, word "from", Pattern.gap,
    otherModule trustedModule]

theorem search?_importFrom : (importFrom.search? t).isSome = true ↔ Imports t := by
  have hgap (n : Nat) (l r : Text) (κ : List (Nat × Capture)) := Sequel.gap_isReadBy n l r κ
  rw [isSome_search?]
  simp only [importFrom, Pattern.all, Pattern.word, Pattern.gap, many1, few, leads_seq, leads_text,
    leads_one, leads_run] at hgap ⊢
  simp only [hgap]
  constructor
  · rintro ⟨a, _, rfl, _, rfl, x, _, rfl, hx, g, _, rfl, hg, f, _, rfl, hf, b, rfl, hb⟩
    exact ⟨a, x :: (g ++ f), b, by simp [importWord, fromWord], ⟨x, g, f, rfl, hx, hg, hf⟩, hb⟩
  · rintro ⟨a, m, b, rfl, ⟨x, g, f, rfl, hx, hg, hf⟩, hb⟩
    exact ⟨a, _, rfl, _, rfl, x, _, rfl, hx, g, _, List.append_assoc .., hg, f, _, rfl, hf, b, rfl,
      hb⟩

theorem finds_externalImport :
    externalImport.Finds t ↔ Imports t ∨ externalImport.Shows t := by
  have h : (∃ p ∈ (externalImport.patterns trustedModule).tail, (p.search? t).isSome = true) ↔
      externalImport.Shows t :=
    exists_iff_of_forall₂ <|
      .cons ((IsReadBy.of_sequel Sequel.gap_isReadBy _).notAfter rfl _) <|
      .cons ((IsReadBy.of_sequel Sequel.call_isReadBy _).notAfter rfl _) <|
      .cons ((IsReadBy.of_sequel Sequel.call_isReadBy _).notAfter rfl _) .nil
  rw [← h, ← search?_importFrom]
  simp only [Finds, patterns, List.tail_cons, List.mem_cons, or_and_right, exists_or,
    exists_eq_left]
  rfl

theorem finds_iff (c : DenyCategory) :
    c.Finds t ↔ c = externalImport ∧ Imports t ∨ c.Shows t := by
  cases c with
  | htmlInjection => simp [finds_htmlInjection]
  | codeEvaluation => simp [finds_codeEvaluation]
  | functionConstructor => simp [finds_functionConstructor]
  | domManipulation => simp [finds_domManipulation]
  | browserStorage => simp [finds_browserStorage]
  | networkAccess => simp [finds_networkAccess]
  | externalImport => simp [finds_externalImport]

end DenyCategory

/-- All signs. -/
def Sign.all : List Sign := DenyCategory.all.flatMap DenyCategory.signs

/-- A text has denied code, where an import counts only if `P` holds of what stands between its
words and of what follows them. -/
def DeniedFor (P : Text → Text → Prop) (t : Text) : Prop :=
  (∃ a m b, Import t a m b ∧ P m b) ∨ ∃ s ∈ Sign.all, s.In t

/-- A text has denied code. -/
def Denied (t : Text) : Prop := DeniedFor (fun _ _ => True) t

theorem denied_iff {t : Text} : Denied t ↔ Imports t ∨ ∃ s ∈ Sign.all, s.In t := by
  simp only [Denied, DeniedFor, and_true, Imports]

theorem DeniedFor.mono {P Q : Text → Text → Prop} {t : Text} (h : DeniedFor P t)
    (hPQ : ∀ a m b, Import t a m b → P m b → Q m b) : DeniedFor Q t :=
  h.imp_left fun ⟨a, m, b, hi, hp⟩ => ⟨a, m, b, hi, hPQ a m b hi hp⟩

theorem DeniedFor.denied {P : Text → Text → Prop} {t : Text} (h : DeniedFor P t) : Denied t :=
  h.mono fun _ _ _ _ _ => trivial

/-- The deny list passes just the texts without an import and without a sign. -/
theorem isHarmless_iff {t : Text} : t.isHarmless trustedModule = true ↔ ¬ Denied t := by
  have hviolation (c : DenyCategory) : c.violation? trustedModule t = none ↔ ¬ c.Finds t := by
    simp [DenyCategory.violation?, DenyCategory.Finds, List.findSome?_eq_none_iff]
  have hsigns : (∃ s ∈ Sign.all, s.In t) ↔ ∃ c ∈ DenyCategory.all, c.Shows t := by
    simp only [Sign.all, List.mem_flatMap, DenyCategory.Shows]
    constructor
    · rintro ⟨s, ⟨c, hc, hs⟩, h⟩
      exact ⟨c, hc, s, hs, h⟩
    · rintro ⟨c, hc, s, hs, h⟩
      exact ⟨s, ⟨c, hc, hs⟩, h⟩
  have hfinds : (∃ c ∈ DenyCategory.all, c.Finds t) ↔ Denied t := by
    rw [denied_iff, hsigns]
    constructor
    · rintro ⟨c, hc, h⟩
      exact (c.finds_iff.mp h).imp And.right fun h => ⟨c, hc, h⟩
    · rintro (h | ⟨c, hc, h⟩)
      · exact ⟨.externalImport, by decide, DenyCategory.finds_externalImport.mpr (.inl h)⟩
      · exact ⟨c, hc, c.finds_iff.mpr (.inr h)⟩
  rw [← hfinds, Text.isHarmless, Text.violations, List.isEmpty_iff, List.filterMap_eq_nil_iff]
  simp [hviolation]

end SnippetGate
