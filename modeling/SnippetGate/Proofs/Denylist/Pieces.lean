import SnippetGate.Proofs.Denylist.Imports
import SnippetGate.Proofs.Pattern.Replaced

/-!
# What a category is reported for

The piece of a text that a category is reported for. Except for imports it is a denied word with
what is read of its sequel: nothing, or blanks with an equals sign, a parenthesis or a quote. When
an import binds names it is all up to the quote of the module.
-/

namespace SnippetGate

open Pattern

variable {trusted t u v f r a b : Text} {c : DenyCategory} {s : Sign} {q : Sequel} {p : Pattern}

/-! ### The piece and its place -/

namespace DenyCategory

/-- The category is reported for the piece `f` between `a` and `b`. -/
def Blames (trusted : Text) (c : DenyCategory) (a f b : Text) : Prop :=
  ∃ m, (c.patterns trusted).findSome? (fun p => p.search? (a ++ (f ++ b))) = some m ∧
    m.start = a.length ∧ m.text = f

theorem Blames.violation?_eq (h : c.Blames trusted a f b) :
    c.violation? trusted (a ++ (f ++ b)) = some f := by
  obtain ⟨m, hm, -, rfl⟩ := h
  have hmap := congrArg (Option.map Match.text) hm
  rwa [List.map_findSome?] at hmap

theorem Blames.exists_takes (h : c.Blames trusted a f b) :
    ∃ p ∈ c.patterns trusted, ∃ m, p.Takes a m b ∧ m.text = f := by
  obtain ⟨m, hm, hstart, rfl⟩ := h
  obtain ⟨p, hp, hm⟩ := List.exists_of_findSome?_eq_some hm
  obtain ⟨a', v, he, htakes, -⟩ := exists_takes_of_searchFrom? (u := []) hm
  rw [List.nil_append] at htakes
  obtain ⟨rfl, hrest⟩ := List.append_inj he (hstart.symm.trans htakes.start)
  obtain rfl := List.append_cancel_left hrest
  exact ⟨p, hp, m, htakes, rfl⟩

end DenyCategory

/-! ### Denied words -/

/-- What of a sequel belongs to the piece, before the text `v`. -/
inductive Sequel.Tail : Sequel → Text → Text → Prop where
  | met {v : Text} : Tail .met [] v
  | edge {v : Text} (hv : ∀ y ∈ v.head?, isWord y = false) : Tail .edge [] v
  | assignment {g v : Text} (hg : ∀ y ∈ g, isBlank y = true) : Tail .assignment (g ++ ['=']) v
  | call {g v : Text} (hg : ∀ y ∈ g, isBlank y = true) : Tail .call (g ++ ['(']) v
  | timer {g k v : Text} {x : Char} (hg : ∀ y ∈ g, isBlank y = true)
    (hk : ∀ y ∈ k, isBlank y = true) (hx : isCodeQuote x = true) :
    Tail .timer (g ++ '(' :: (k ++ [x])) v

/-- The text `f` between `u` and `v` is a piece for which the sign is denied. -/
def Sign.Piece (s : Sign) (u f v : Text) : Prop :=
  (∀ x ∈ u.getLast?, s.apart x = false) ∧ ∃ r, f = s.word ++ r ∧ s.sequel.Tail r v

/-- Every piece of the pattern is one of the sign. -/
def Sign.Covers (s : Sign) (p : Pattern) : Prop :=
  p.isExplicit = true ∧ ∀ u f v, p.Fits u f v → s.Piece u f v

namespace Sequel.Tail

theorem holds (h : q.Tail r v) : q.Holds (r ++ v) := by
  cases h with
  | met => exact holds_met
  | edge hv =>
    cases v with
    | nil => rfl
    | cons y v =>
      rw [List.nil_append, holds_cons, step, hv y rfl]
      exact holds_met
  | @assignment g v hg =>
    refine (holds_iff_of_seek (s := .assignment) rfl rfl fun _ =>
      not_isBlank_of_beq (by decide)).mpr ⟨g, '=', v, by simp, hg, rfl, holds_met⟩
  | @call g v hg =>
    refine (holds_iff_of_seek (s := .call) rfl rfl fun _ =>
      not_isBlank_of_beq (by decide)).mpr ⟨g, '(', v, by simp, hg, rfl, holds_met⟩
  | @timer g k v x hg hk hx =>
    refine (holds_iff_of_seek (s := .timer) rfl rfl fun _ =>
      not_isBlank_of_beq (by decide)).mpr ⟨g, '(', k ++ x :: v, by simp, hg, rfl, ?_⟩
    exact (holds_iff_of_seek (s := .code) rfl rfl fun _ =>
      not_isBlank_of_isCodeQuote).mpr ⟨k, x, v, rfl, hk, hx, holds_met⟩

end Sequel.Tail

namespace Sign

theorem Piece.stands (h : s.Piece u f v) : s.Stands u (f ++ v) := by
  obtain ⟨hu, r, rfl, hr⟩ := h
  exact ⟨hu, r ++ v, List.append_assoc .., hr.holds⟩

theorem covers_text (w : Text) : (⟨anywhere, w, .met⟩ : Sign).Covers (Pattern.text w) :=
  ⟨isExplicit_text w, fun _ _ _ h =>
    ⟨fun _ _ => rfl, [], by rw [fits_text.mp h, List.append_nil], .met⟩⟩

theorem covers_assignment (w : Text) :
    (⟨anywhere, w, .assignment⟩ : Sign).Covers
      (Pattern.all [Pattern.text w, blanks, char '=']) := by
  refine ⟨Bool.and_eq_true_iff.mpr ⟨isExplicit_text w, rfl⟩, ?_⟩
  rintro u f v ⟨f, _, rfl, hf, g, _, rfl, hg, y, rfl, hy⟩
  obtain rfl := beq_iff_eq.mp hy
  exact ⟨fun _ _ => rfl, _, by rw [fits_text.mp hf], .assignment hg⟩

theorem covers_call (w : Text) :
    (⟨anywhere, w, .call⟩ : Sign).Covers (Pattern.all [Pattern.text w, blanks, char '(']) := by
  refine ⟨Bool.and_eq_true_iff.mpr ⟨isExplicit_text w, rfl⟩, ?_⟩
  rintro u f v ⟨f, _, rfl, hf, g, _, rfl, hg, y, rfl, hy⟩
  obtain rfl := beq_iff_eq.mp hy
  exact ⟨fun _ _ => rfl, _, by rw [fits_text.mp hf], .call hg⟩

theorem covers_timer (w : Text) :
    (⟨anywhere, w, .timer⟩ : Sign).Covers
      (Pattern.all [Pattern.text w, blanks, char '(', blanks, .one isCodeQuote]) := by
  refine ⟨Bool.and_eq_true_iff.mpr ⟨isExplicit_text w, rfl⟩, ?_⟩
  rintro u f v ⟨f, _, rfl, hf, g, _, rfl, hg, _, _, rfl, ⟨y, rfl, hy⟩, k, _, rfl, hk, x, rfl, hx⟩
  obtain rfl := beq_iff_eq.mp hy
  exact ⟨fun _ _ => rfl, _, by rw [fits_text.mp hf]; rfl, .timer hg hk hx⟩

theorem covers_edge {w : Text} (hw : w.getLast?.any isWord = true) :
    (⟨anywhere, w, .edge⟩ : Sign).Covers (.seq (Pattern.text w) .wordEdge) := by
  refine ⟨Bool.and_eq_true_iff.mpr ⟨isExplicit_text w, rfl⟩, ?_⟩
  rintro u _ v ⟨f, _, rfl, hf, rfl, hedge⟩
  obtain rfl := fits_text.mp hf
  refine ⟨fun _ _ => rfl, [], rfl, .edge (any_eq_false_iff.mp ?_)⟩
  rw [List.getLast?_append_of_ne_nil _ (by rintro rfl; cases hw), hw] at hedge
  exact Bool.eq_false_iff.mpr hedge.symm

theorem Covers.notAfter (h : s.Covers p) (q : Char → Bool) :
    (⟨q, s.word, s.sequel⟩ : Sign).Covers (.seq (.notAfter q) p) := by
  refine ⟨h.1, ?_⟩
  rintro u f v ⟨_, f, rfl, ⟨rfl, hu⟩, hf⟩
  rw [List.append_nil] at hf
  exact ⟨hu, (h.2 u f v hf).2⟩

end Sign

/-! ### Pieces of a category -/

namespace DenyCategory

open Sign

/-- Every piece of the pattern is one of a sign of the category. -/
def Spells (c : DenyCategory) (p : Pattern) : Prop :=
  p.isExplicit = true ∧ ∀ u f v, p.Fits u f v → ∃ s ∈ c.signs, s.Piece u f v

theorem spells_of_covers (hs : s ∈ c.signs) (h : s.Covers p) : c.Spells p :=
  ⟨h.1, fun u f v hf => ⟨s, hs, h.2 u f v hf⟩⟩

theorem exists_covers_of_forall₂ {ss : List Sign} {ps : List Pattern}
    (h : List.Forall₂ Covers ss ps) : ∀ p ∈ ps, ∃ s ∈ ss, s.Covers p := by
  induction h with
  | nil => exact List.forall_mem_nil _
  | cons h _ ih =>
    refine List.forall_mem_cons.mpr ⟨⟨_, List.mem_cons_self, h⟩, fun p hp => ?_⟩
    obtain ⟨s, hs, hcovers⟩ := ih p hp
    exact ⟨s, List.mem_cons_of_mem _ hs, hcovers⟩

theorem spells_of_forall₂ {ps : List Pattern} (h : List.Forall₂ Covers c.signs ps) :
    ∀ p ∈ ps, c.Spells p := fun p hp => by
  obtain ⟨s, hs, hcovers⟩ := exists_covers_of_forall₂ h p hp
  exact spells_of_covers hs hcovers

/-- A piece of one of two words with the same beginning. -/
theorem fits_text_any {w w₁ w₂ : Text}
    (h : (Pattern.all [Pattern.text w, any [Pattern.text w₁, Pattern.text w₂], p]).Fits u f v) :
    (Pattern.all [Pattern.text (w ++ w₁), p]).Fits u f v ∨
      (Pattern.all [Pattern.text (w ++ w₂), p]).Fits u f v := by
  obtain ⟨f, _, rfl, hw, g, k, rfl, hg, hp⟩ := h
  obtain rfl := fits_text.mp hw
  rcases hg with hg | hg
  · obtain rfl := fits_text.mp hg
    exact .inl ⟨f ++ g, k, by simp, fits_text.mpr rfl, by simpa using hp⟩
  · obtain rfl := fits_text.mp hg
    exact .inr ⟨f ++ g, k, by simp, fits_text.mpr rfl, by simpa using hp⟩

theorem spells_codeEvaluation : ∀ p ∈ codeEvaluation.patterns trusted, codeEvaluation.Spells p := by
  have hset : codeEvaluation.Spells (Pattern.all [freshName, word "set", any [word "Timeout",
      word "Interval"], blanks, char '(', blanks, .one isCodeQuote]) := by
    refine ⟨rfl, ?_⟩
    rintro u f v ⟨_, f, rfl, ⟨rfl, hu⟩, hf⟩
    rw [List.append_nil] at hf
    rcases fits_text_any hf with hf | hf
    · exact ⟨_, List.mem_cons_of_mem _ List.mem_cons_self, hu, ((covers_timer _).2 u f v hf).2⟩
    · exact ⟨_, List.mem_cons_of_mem _ (List.mem_cons_of_mem _ List.mem_cons_self), hu,
        ((covers_timer _).2 u f v hf).2⟩
  have heval :=
    spells_of_covers (c := codeEvaluation) List.mem_cons_self (covers_call "eval".toList)
  exact List.forall_mem_cons.mpr ⟨heval, List.forall_mem_singleton.mpr hset⟩

theorem spells (hc : c ≠ externalImport) : ∀ p ∈ c.patterns trusted, c.Spells p := by
  cases c with
  | externalImport => exact absurd rfl hc
  | codeEvaluation => exact spells_codeEvaluation
  | htmlInjection =>
    exact spells_of_forall₂ <|
      .cons (covers_text _) <|
      .cons (covers_assignment _) <|
      .cons (covers_assignment _) <|
      .cons (covers_text _) .nil
  | functionConstructor =>
    exact spells_of_forall₂ <| .cons ((covers_call _).notAfter _) .nil
  | domManipulation =>
    exact spells_of_forall₂ <|
      .cons (covers_text _) <|
      .cons (covers_text _) <|
      .cons (covers_text _) <|
      .cons (covers_call _) <|
      .cons (covers_text _) .nil
  | browserStorage =>
    exact spells_of_forall₂ <|
      .cons (covers_text _) <|
      .cons (covers_text _) <|
      .cons (covers_text _) <|
      .cons (covers_text _) .nil
  | networkAccess =>
    exact spells_of_forall₂ <|
      .cons ((covers_call _).notAfter _) <|
      .cons (covers_text _) <|
      .cons ((covers_edge rfl).notAfter _) <|
      .cons ((covers_edge rfl).notAfter _) <|
      .cons (covers_text _) <|
      .cons ((covers_text _).notAfter _) .nil

end DenyCategory

/-! ### Pieces of an import -/

/-- The text `f` before `v` is what is read of an import that binds names, with `m` between its
words. -/
def BindingPiece (trusted f m v : Text) : Prop :=
  ∃ g q, f = importWord ++ (m ++ (fromWord ++ (g ++ [q]))) ∧ Clause m ∧ g ≠ [] ∧
    (∀ x ∈ g, isBlank x = true) ∧ isModuleQuote q = true ∧ ¬ TakenForTrusted trusted v

theorem exists_of_takes_binding {m : Match}
    (h : (Pattern.all [word "import", gap, few isFlat, word "from", gap,
      DenyCategory.otherModule trusted]).Takes a m b) :
    ∃ k, BindingPiece trusted m.text k b := by
  have hleads : (Pattern.all [word "import", gap, few isFlat, word "from", gap,
      DenyCategory.otherModule trusted]).Leads ⟨.amid a (m.text ++ b), []⟩
        fun t => t.cursor.after = b := ⟨m.last, h.first ▸ h.mem_ends, h.after⟩
  simp only [Pattern.all, word, gap, many1, few, leads_seq, leads_text, leads_one, leads_run,
    Cursor.amid, DenyCategory.otherModule, leads_moduleQuote, leads_notAhead] at hleads
  obtain ⟨_, he, x, _, rfl, hx, g, _, rfl, hg, f, _, rfl, hf, _, rfl, x', _, rfl, hx', g', _, rfl,
    hg', q, b, rfl, hq, hb, rfl⟩ := hleads
  refine ⟨x :: (g ++ f), x' :: g', q, ?_, ⟨x, g, f, rfl, hx, hg, hf⟩, List.cons_ne_nil _ _,
    List.forall_mem_cons.mpr ⟨hx', hg'⟩, hq, ?_⟩
  · refine (List.append_left_inj b).mp ?_
    simpa [importWord, fromWord] using he
  · rintro ⟨q, r, hr, hq⟩
    exact hb ⟨q :: r, hr, q, r, rfl, hq, trivial⟩

theorem exists_of_takes_bare {m : Match}
    (h : (Pattern.all [DenyCategory.freshWord, word "import", gap,
      DenyCategory.otherModule trusted]).Takes a m b) :
    ∃ g q, m.text = importWord ++ (g ++ [q]) ∧ (∀ x ∈ g, isBlank x = true) ∧
      isModuleQuote q = true := by
  have hleads : (Pattern.all [DenyCategory.freshWord, word "import", gap,
      DenyCategory.otherModule trusted]).Leads ⟨.amid a (m.text ++ b), []⟩
        fun t => t.cursor.after = b := ⟨m.last, h.first ▸ h.mem_ends, h.after⟩
  simp only [Pattern.all, DenyCategory.freshWord, word, gap, many1, leads_seq, leads_notAfter,
    leads_text, leads_one, leads_run, Cursor.amid, DenyCategory.otherModule, leads_moduleQuote,
    leads_notAhead] at hleads
  obtain ⟨-, _, he, x, _, rfl, hx, g, _, rfl, hg, q, b, rfl, hq, -, rfl⟩ := hleads
  refine ⟨x :: g, q, ?_, List.forall_mem_cons.mpr ⟨hx, hg⟩, hq⟩
  refine (List.append_left_inj b).mp ?_
  simpa [importWord] using he

end SnippetGate
