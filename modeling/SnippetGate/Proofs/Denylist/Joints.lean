import SnippetGate.Proofs.Denylist.Pieces

/-!
# Blanks between a name and the mark beside it

The language allows blanks between a name and a dot, a parenthesis or an equals sign. The deny list
allows them where they belong to a sequel. It spells the dot of a member access as a part of a word,
so with a blank on either side of the dot a word is no longer found. The clause of an import may
hold all marks and may be laid out freely, as long as it stays on its line.
-/

namespace SnippetGate

open Pattern

variable {trusted t u v f r a b x y ws : Text} {c : DenyCategory} {s s' : Sign} {q : Sequel}
  {p : Pattern} {z : Char}

/-! ### Joints -/

/-- Whether a character is a mark between which and a name the language allows blanks. -/
def isMark (z : Char) : Bool := z == '.' || z == '(' || z == '='

theorem not_isSignChar_of_isMark (hz : isMark z = true) (hdot : z ≠ '.') :
    isSignChar z = false := by
  simp only [isMark, Bool.or_eq_true, beq_iff_eq] at hz
  rcases hz with (rfl | rfl) | rfl
  · exact absurd rfl hdot
  · rfl
  · rfl

/-- Between `x` and `y` a name and the character `z` stand side by side. -/
def IsJoint (z : Char) (x y : Text) : Prop :=
  (∃ d ∈ x.getLast?, isNameChar d = true) ∧ y.head? = some z ∨
    x.getLast? = some z ∧ ∃ d ∈ y.head?, isNameChar d = true

/-- The category does not go unreported for blanks put into a piece that it is reported for, between
`x` and `y`. -/
def DenyCategory.Survives (trusted : Text) (c : DenyCategory) (x y ws : Text) : Prop :=
  ∀ a b, c.Blames trusted a (x ++ y) b →
    Text.Reports (a ++ (x ++ (ws ++ (y ++ b)))) trusted c

theorem IsJoint.left_ne_nil (h : IsJoint z x y) : x ≠ [] := by
  rintro rfl
  rcases h with ⟨⟨d, hx, -⟩, -⟩ | ⟨hx, -⟩ <;> cases hx

theorem IsJoint.mem (h : IsJoint z x y) : z ∈ x.getLast? ∨ z ∈ y.head? :=
  h.elim (fun h => .inr h.2) fun h => .inl h.1

/-- A joint lies in the part of a text in which its mark stands. -/
theorem IsJoint.exists_split {k l m : Text} (h : IsJoint z x y) (he : x ++ y = k ++ (l ++ m))
    (hk : z ∉ k) (hm : z ∉ m) : ∃ l₁ l₂, l = l₁ ++ l₂ ∧ x = k ++ l₁ ∧ y = l₂ ++ m := by
  rcases List.append_eq_append_iff.mp he with ⟨j, rfl, rfl⟩ | ⟨j, rfl, hj⟩
  · by_cases hj : j = []
    · subst hj
      exact ⟨[], l, rfl, by simp, rfl⟩
    · rw [List.mem_append, not_or] at hk
      rcases h.mem with hx | hy
      · exact absurd (List.mem_of_getLast? hx) hk.1
      · rw [List.head?_append_of_ne_nil _ hj] at hy
        exact absurd (List.mem_of_head? hy) hk.2
  · rcases List.append_eq_append_iff.mp hj with ⟨i, rfl, rfl⟩ | ⟨i, rfl, rfl⟩
    · by_cases hi : i = []
      · subst hi
        exact ⟨l, [], by simp, by simp, rfl⟩
      · rw [List.mem_append, not_or] at hm
        rcases h.mem with hx | hy
        · rw [List.getLast?_append_of_ne_nil _ (by simp [hi]),
            List.getLast?_append_of_ne_nil _ hi] at hx
          exact absurd (List.mem_of_getLast? hx) hm.1
        · exact absurd (List.mem_of_head? hy) hm.2
    · exact ⟨j, i, rfl, rfl, rfl⟩

/-! ### Blanks in a sequel -/

namespace Sequel

/-- Whether blanks may stand before what is not yet read, now and later on. -/
def isPatient : Sequel → Bool
  | gap | module | other _ => false
  | _ => true

theorem isPatient_step (h : q.isPatient = true) (d : Char) : (q.step d).isPatient = true := by
  cases q with
  | met | missed => rfl
  | edge =>
    rw [step]
    split <;> rfl
  | assignment | call | timer | code =>
    rw [step, seek]
    split_ifs <;> rfl
  | gap | module | other => cases h

theorem isPatient_foldl (h : q.isPatient = true) (t : Text) :
    (t.foldl step q).isPatient = true := by
  induction t generalizing q with
  | nil => exact h
  | cons d t ih => exact ih (isPatient_step h d)

/-- A blank changes nothing, or it is all that was asked for. -/
theorem step_of_isBlank (hq : q.isPatient = true) {d : Char} (hd : isBlank d = true) :
    q.step d = q ∨ q.step d = met := by
  cases q with
  | met | missed => exact .inl rfl
  | edge =>
    right
    rw [step, not_isWord_of_isBlank hd]
    rfl
  | assignment | call | timer =>
    left
    rw [step, seek, beq_eq_false_of_isBlank hd (by decide), hd]
    rfl
  | code =>
    left
    have hquote : isCodeQuote d = false := by
      by_contra hquote
      rw [not_isBlank_of_isCodeQuote (by simpa using hquote)] at hd
      cases hd
    rw [step, seek, hquote, hd]
    rfl
  | gap | module | other => cases hq

theorem holds_blanks_append (hq : q.isPatient = true) (hws : ∀ d ∈ ws, isBlank d = true)
    (h : q.Holds t) : q.Holds (ws ++ t) := by
  induction ws with
  | nil => exact h
  | cons d ws ih =>
    obtain ⟨hd, hws⟩ := List.forall_mem_cons.mp hws
    rw [List.cons_append, holds_cons]
    rcases step_of_isBlank hq hd with he | he
    · rw [he]
      exact ih hws
    · rw [he]
      exact holds_met

/-- Blanks that are put in behind `u` leave a sequel met. -/
theorem holds_insert (hq : q.isPatient = true) (hws : ∀ d ∈ ws, isBlank d = true)
    (h : q.Holds (u ++ v)) : q.Holds (u ++ (ws ++ v)) := by
  rw [holds_append] at h ⊢
  exact holds_blanks_append (isPatient_foldl hq u) hws h

/-- No character of a tail can stand in a name or in a denied word. -/
theorem Tail.isPlain (h : q.Tail r v) : ∀ d ∈ r, isNameChar d = false ∧ isSignChar d = false := by
  have blank {g : Text} (hg : ∀ d ∈ g, isBlank d = true) :
      ∀ d ∈ g, isNameChar d = false ∧ isSignChar d = false := fun d hd =>
    ⟨not_isNameChar_of_isBlank (hg d hd), not_isSignChar_of_isBlank (hg d hd)⟩
  cases h with
  | met | edge => exact List.forall_mem_nil _
  | assignment hg | call hg =>
    exact List.forall_mem_append.mpr ⟨blank hg, List.forall_mem_singleton.mpr (by decide)⟩
  | timer hg hk hx =>
    refine List.forall_mem_append.mpr ⟨blank hg, List.forall_mem_cons.mpr ⟨by decide,
      List.forall_mem_append.mpr ⟨blank hk, List.forall_mem_singleton.mpr ?_⟩⟩⟩
    simp only [isCodeQuote, Bool.or_eq_true, beq_iff_eq] at hx
    rcases hx with (rfl | rfl) | rfl <;> decide

/-- Before the end of a text the tail belongs to the piece as well. -/
theorem Tail.before_end (h : q.Tail r v) : q.Tail r [] := by
  cases h with
  | met => exact .met
  | edge => exact .edge nofun
  | assignment hg => exact .assignment hg
  | call hg => exact .call hg
  | timer hg hk hx => exact .timer hg hk hx

/-- No tail goes on to another: it ends with its only character that no blank stands for. -/
theorem Tail.eq_nil_of_append {k : Text} (h : q.Tail r u) (h' : q.Tail (r ++ k) v) : k = [] := by
  by_contra hk
  have hinside {g : Text} {d : Char} (he : r ++ k = g ++ [d]) : ∀ z ∈ r, z ∈ g := by
    rcases List.prefix_concat_iff.mp ⟨k, he⟩ with rfl | hprefix
    · exact absurd (List.append_right_eq_self.mp he) hk
    · exact fun z hz => hprefix.subset hz
  generalize hw : r ++ k = w at h'
  cases h with
  | met | edge =>
    cases h'
    exact hk hw
  | assignment hg =>
    cases h' with
    | assignment hg' =>
      have hblank := hg' '=' (hinside hw _ (by simp))
      exact absurd hblank (by decide)
  | call hg =>
    cases h' with
    | call hg' =>
      have hblank := hg' '(' (hinside hw _ (by simp))
      exact absurd hblank (by decide)
  | @timer g l _ x hg hl hx =>
    cases h' with
    | @timer g' l' _ x' hg' hl' hx' =>
      have hmem := hinside (g := g' ++ '(' :: l') (d := x') (by simpa using hw) x (by simp)
      have hblank := not_isBlank_of_isCodeQuote hx
      rcases List.mem_append.mp hmem with hmem | hmem
      · rw [hg' x hmem] at hblank
        cases hblank
      · rcases List.mem_cons.mp hmem with rfl | hmem
        · exact absurd hx (by decide)
        · rw [hl' x hmem] at hblank
          cases hblank

end Sequel

/-! ### Words and joints -/

theorem Sign.mem_all (hs : s ∈ c.signs) : s ∈ Sign.all :=
  List.mem_flatMap.mpr ⟨c, by cases c <;> decide, hs⟩

theorem not_mem_word (hs : s ∈ c.signs) (hz : isSignChar z = false) : z ∉ s.word := fun hm => by
  rw [isSignChar_of_mem_word (mem_deniedWords (Sign.mem_all hs)) hm] at hz
  cases hz

/-- A joint at a mark that is not in the word lies behind it, and blanks there are read over. -/
theorem Sign.Piece.stands_insert (hq : s.sequel.isPatient = true) (h : s.Piece a (x ++ y) b)
    (hj : IsJoint z x y) (hz : z ∉ s.word) (hws : ∀ d ∈ ws, isBlank d = true) :
    s.Stands a (x ++ (ws ++ (y ++ b))) := by
  obtain ⟨ha, r, he, hr⟩ := h
  obtain ⟨r, y, rfl, rfl, rfl⟩ := hj.exists_split (m := []) (by simpa using he) hz List.not_mem_nil
  have hholds := hr.holds
  rw [List.append_assoc] at hholds
  refine ⟨ha, r ++ (ws ++ (y ++ b)), by simp, ?_⟩
  exact Sequel.holds_insert hq hws hholds

/-- A joint at a dot lies in the word. -/
theorem exists_word_split (hj : IsJoint '.' x y) (he : x ++ y = s.word ++ r) (hr : q.Tail r v) :
    ∃ k, k ≠ [] ∧ s.word = x ++ k ∧ y = k ++ r := by
  have hdot : '.' ∉ r := fun hm => absurd (hr.isPlain '.' hm).2 (by decide)
  obtain ⟨l, k, hword, rfl, rfl⟩ := hj.exists_split (k := []) he List.not_mem_nil hdot
  refine ⟨k, ?_, hword, rfl⟩
  rintro rfl
  rcases hj with ⟨-, hy⟩ | ⟨-, d, hy, hd⟩
  · exact hdot (List.mem_of_head? hy)
  · rw [(hr.isPlain d (List.mem_of_head? hy)).1] at hd
    cases hd

theorem isPatient_of_mem (hc : c ≠ .externalImport) (hs : s ∈ c.signs) :
    s.sequel.isPatient = true := by
  have hall : ∀ s ∈ c.signs, s.sequel.isPatient = true := by
    cases c with
    | externalImport => exact absurd rfl hc
    | _ => decide
  exact hall s hs

/-- Of the words of a category none is a part of another, so that a word tells its sequel. -/
theorem eq_of_infix_word (hc : c ≠ .externalImport) (hs : s ∈ c.signs) (hs' : s' ∈ c.signs)
    (h : s'.word <:+: s.word) : s'.word = s.word ∧ s'.sequel = s.sequel := by
  have hall : ∀ s ∈ c.signs.map fun s => (s.word, s.sequel),
      ∀ s' ∈ c.signs.map fun s => (s.word, s.sequel), s'.1 <:+: s.1 → s' = s := by
    cases c with
    | externalImport => exact absurd rfl hc
    | _ => decide +kernel
  exact Prod.mk.inj (hall _ (List.mem_map_of_mem hs) _ (List.mem_map_of_mem hs') h)

/-- A word in a piece stands in the word of the piece. -/
theorem word_cases (hs' : s' ∈ c.signs) (hr : q.Tail r v) {w k : Text}
    (he : w ++ r = u ++ (s'.word ++ k)) : ∃ l, w = u ++ (s'.word ++ l) ∧ k = l ++ r := by
  have hmem := mem_deniedWords (Sign.mem_all hs')
  have hparts : Parts w r := parts_of_head fun d hd => (hr.isPlain d (List.mem_of_head? hd)).2
  rcases hparts.cases hmem he with h | ⟨j, hj, -⟩
  · exact h
  · refine absurd ⟨j, k, by rw [hj, List.append_assoc]⟩
      (wordless_of_forall (fun d hd => (hr.isPlain d hd).2) _ hmem)

theorem reports_iff_shows (trusted : Text) (hc : c ≠ .externalImport) :
    t.Reports trusted c ↔ c.Shows t := by
  have hpatterns : c.patterns trusted = c.patterns trustedModule := by
    cases c with
    | externalImport => exact absurd rfl hc
    | _ => rfl
  rw [Text.reports_iff, hpatterns, ← DenyCategory.Finds, c.finds_iff]
  simp [hc]

/-- A piece by itself is what the category is reported for. -/
theorem DenyCategory.blames_self (trusted : Text) (hc : c ≠ .externalImport) (hs : s ∈ c.signs)
    (h : s.Piece a f b) : c.Blames trusted [] f [] := by
  obtain ⟨-, r, rfl, hr⟩ := h
  have hpiece : s.Piece [] (s.word ++ r) [] := ⟨nofun, r, rfl, hr.before_end⟩
  have hfinds := Text.reports_iff.mp ((reports_iff_shows trusted hc).mpr
    ⟨s, hs, [], _, rfl, hpiece.stands⟩)
  obtain ⟨m, hm⟩ := Option.isSome_iff_exists.mp (List.findSome?_isSome_iff.mpr hfinds)
  obtain ⟨p, hp, hpm⟩ := List.exists_of_findSome?_eq_some hm
  obtain ⟨u, v, he, htakes, -⟩ := exists_takes_of_searchFrom? (u := []) hpm
  obtain ⟨s', hs', -, r', htext, hr'⟩ := (spells hc p hp).2 _ _ _ (htakes.fits (spells hc p hp).1)
  simp only [htext, List.nil_append, List.append_nil, List.append_assoc] at he
  obtain ⟨l, hword, hl⟩ := word_cases hs' hr he
  obtain ⟨hw, hq⟩ := eq_of_infix_word hc hs hs' ⟨u, l, by rw [hword, List.append_assoc]⟩
  obtain ⟨rfl, rfl⟩ : u = [] ∧ l = [] := by
    have hlength := congrArg List.length hword
    simp only [List.length_append, hw] at hlength
    exact ⟨List.length_eq_zero_iff.mp (by omega), List.length_eq_zero_iff.mp (by omega)⟩
  rw [List.nil_append] at hl
  rw [hq] at hr'
  obtain rfl : v = [] := hr'.eq_nil_of_append (hl ▸ hr)
  refine ⟨m, by simpa using hm, by simpa using htakes.start, ?_⟩
  rw [htext, hw, ← hl, List.append_nil]

/-- With blanks in its word a piece by itself is not reported. -/
theorem not_reports_insert (hc : c ≠ .externalImport) (hs : s ∈ c.signs) (hr : q.Tail r v)
    {x k : Text} (hword : s.word = x ++ k) (hx : x ≠ []) (hk : k ≠ []) (hne : ws ≠ [])
    (hws : ∀ d ∈ ws, isBlank d = true) :
    ¬ Text.Reports (x ++ (ws ++ (k ++ r))) trusted c := by
  rw [reports_iff_shows trusted hc]
  rintro ⟨s', hs', u, _, he, -, l, rfl, -⟩
  have hmem := mem_deniedWords (Sign.mem_all hs')
  -- a part of the word that holds a word is all of it
  have whole {w : Text} (hw : w <:+: s.word) (h : s'.word <:+: w) : s.word.length ≤ w.length := by
    rw [← (eq_of_infix_word hc hs hs' (h.trans hw)).1]
    exact h.length_le
  have hlength : s.word.length = x.length + k.length := by rw [hword, List.length_append]
  have hxpos := List.length_pos_of_ne_nil hx
  have hkpos := List.length_pos_of_ne_nil hk
  have hparts : Parts x (ws ++ (k ++ r)) := parts_of_head fun d hd => by
    rw [List.head?_append_of_ne_nil _ hne] at hd
    exact not_isSignChar_of_isBlank (hws d (List.mem_of_head? hd))
  rcases hparts.cases hmem he with ⟨j, hj, -⟩ | ⟨j, hj, -⟩
  · have := whole (hword ▸ (List.prefix_append x k).isInfix) ⟨u, j, by rw [hj, List.append_assoc]⟩
    omega
  have hparts' : Parts ws (k ++ r) := parts_of_getLast fun d hd =>
    not_isSignChar_of_isBlank (hws d (List.mem_of_getLast? hd))
  rcases hparts'.cases hmem hj with ⟨i, hi, -⟩ | ⟨i, hi, -⟩
  · exact wordless_of_forall (fun d hd => not_isSignChar_of_isBlank (hws d hd)) _ hmem
      ⟨j, i, by rw [hi, List.append_assoc]⟩
  · obtain ⟨i', hi', -⟩ := word_cases hs' hr hi
    have := whole (hword ▸ (List.suffix_append x k).isInfix) ⟨i, i', by rw [hi', List.append_assoc]⟩
    omega

/-- Except for imports, a piece that holds a joint stays reported just if the mark is no dot. -/
theorem DenyCategory.survives_iff (hc : c ≠ .externalImport) (hz : isMark z = true)
    (hj : IsJoint z x y) (h : c.Blames trusted a (x ++ y) b) (hne : ws ≠ [])
    (hws : ∀ d ∈ ws, isBlank d = true) : c.Survives trusted x y ws ↔ z ≠ '.' := by
  have pieces {a b : Text} (h : c.Blames trusted a (x ++ y) b) :
      ∃ s ∈ c.signs, s.Piece a (x ++ y) b := by
    obtain ⟨p, hp, m, htakes, htext⟩ := h.exists_takes
    obtain ⟨hexplicit, hpieces⟩ := spells hc p hp
    exact hpieces a _ b (htext ▸ htakes.fits hexplicit)
  constructor
  · rintro hsurvives rfl
    obtain ⟨s, hs, hpiece⟩ := pieces h
    have hself := blames_self trusted hc hs hpiece
    obtain ⟨-, r, he, hr⟩ := hpiece
    obtain ⟨k, hk, hword, rfl⟩ := exists_word_split hj he hr
    have hreports := hsurvives [] [] hself
    rw [List.nil_append, List.append_nil] at hreports
    exact not_reports_insert hc hs hr hword hj.left_ne_nil hk hne hws hreports
  · intro hdot a b h
    obtain ⟨s, hs, hpiece⟩ := pieces h
    have hword : z ∉ s.word := not_mem_word hs (not_isSignChar_of_isMark hz hdot)
    rw [reports_iff_shows trusted hc]
    exact ⟨s, hs, a, _, rfl, hpiece.stands_insert (isPatient_of_mem hc hs) hj hword hws⟩

/-! ### Imports -/

theorem not_mem_of_isBlank {g : Text} (hz : isMark z = true) (hg : ∀ d ∈ g, isBlank d = true) :
    z ∉ g := fun hm => by
  have hblank := hg z hm
  simp only [isMark, Bool.or_eq_true, beq_iff_eq] at hz
  rcases hz with (rfl | rfl) | rfl <;> revert hblank <;> decide

theorem not_mem_word_of_isMark (hz : isMark z = true) :
    z ∉ importWord ∧ z ∉ fromWord ∧ z ∉ "require".toList := by
  simp only [isMark, Bool.or_eq_true, beq_iff_eq] at hz
  rcases hz with (rfl | rfl) | rfl <;> decide

theorem ne_of_isModuleQuote {d : Char} (hz : isMark z = true) (hd : isModuleQuote d = true) :
    z ≠ d := by
  simp only [isMark, isModuleQuote, Bool.or_eq_true, beq_iff_eq] at hz hd
  rcases hz with (rfl | rfl) | rfl <;> rcases hd with rfl | rfl <;> decide

/-- Blanks at a joint of the clause leave an import what it is, unless a newline is among them. -/
theorem BindingPiece.holdsBinding_insert {k : Text} (h : BindingPiece trusted (x ++ y) k b)
    (hz : isMark z = true) (hj : IsJoint z x y) (hws : ∀ d ∈ ws, isBlank d = true)
    (hn : '\n' ∉ ws) (a : Text) : HoldsBinding trusted (a ++ (x ++ (ws ++ (y ++ b)))) := by
  obtain ⟨g, q, he, ⟨d, g₀, f, rfl, hd, hg₀, hf⟩, hne, hg, hq, hb⟩ := h
  obtain ⟨himport, hfrom, -⟩ := not_mem_word_of_isMark hz
  have hbefore : z ∉ importWord ++ d :: g₀ := by
    have hblank := not_mem_of_isBlank hz (List.forall_mem_cons.mpr ⟨hd, hg₀⟩)
    simp only [List.mem_append, not_or]
    exact ⟨himport, hblank⟩
  have hbehind : z ∉ fromWord ++ (g ++ [q]) := by
    simp only [List.mem_append, List.mem_singleton, not_or]
    exact ⟨hfrom, not_mem_of_isBlank hz hg, ne_of_isModuleQuote hz hq⟩
  obtain ⟨f₁, f₂, rfl, rfl, rfl⟩ := hj.exists_split (l := f) (by simpa using he) hbefore hbehind
  have hflat : ∀ e ∈ ws, isFlat e = true := fun e he => by
    have hsemicolon : e ≠ ';' := by
      rintro rfl
      exact absurd (hws _ he) (by decide)
    have hnewline : e ≠ '\n' := by
      rintro rfl
      exact hn he
    simp [isFlat, hsemicolon, hnewline]
  refine ⟨a, d :: (g₀ ++ (f₁ ++ (ws ++ f₂))), g ++ q :: b, by simp,
    ⟨d, g₀, f₁ ++ (ws ++ f₂), rfl, hd, hg₀, ?_⟩, g, q, b, rfl, hne, hg, hq, hb⟩
  obtain ⟨hf₁, hf₂⟩ := List.forall_mem_append.mp hf
  exact List.forall_mem_append.mpr ⟨hf₁, List.forall_mem_append.mpr ⟨hflat, hf₂⟩⟩

theorem reports_of_takes_call {w : Text} {m : Match}
    (hp : Pattern.seq DenyCategory.freshWord (Pattern.all [Pattern.text w, blanks, char '(']) ∈
      c.patterns trusted)
    (h : (Pattern.seq DenyCategory.freshWord
      (Pattern.all [Pattern.text w, blanks, char '('])).Takes a m b)
    (htext : m.text = x ++ y) (hj : IsJoint z x y) (hw : z ∉ w)
    (hws : ∀ d ∈ ws, isBlank d = true) :
    Text.Reports (a ++ (x ++ (ws ++ (y ++ b)))) trusted c := by
  have hcovers := (Sign.covers_call w).notAfter Sign.afterMember
  have hpiece := hcovers.2 a m.text b (h.fits hcovers.1)
  rw [htext] at hpiece
  refine Text.reports_iff.mpr ⟨_, hp, ?_⟩
  exact ((Sign.IsReadBy.of_sequel Sequel.call_isReadBy w).notAfter rfl _).in_iff.mpr
    ⟨a, _, rfl, hpiece.stands_insert rfl hj hw hws⟩

/-- An import stays reported with blanks at its joints, unless a newline is among them. -/
theorem DenyCategory.survives_externalImport (hz : isMark z = true) (hj : IsJoint z x y)
    (hws : ∀ d ∈ ws, isBlank d = true) (hn : '\n' ∉ ws) :
    externalImport.Survives trusted x y ws := by
  intro a b h
  obtain ⟨p, hp, m, htakes, htext⟩ := h.exists_takes
  obtain ⟨himport, -, hrequire⟩ := not_mem_word_of_isMark hz
  have hmem := hp
  simp only [patterns, List.mem_cons, List.not_mem_nil, or_false] at hp
  rcases hp with rfl | rfl | rfl | rfl
  · obtain ⟨k, hk⟩ := exists_of_takes_binding htakes
    refine Text.reports_iff.mpr ⟨_, hmem, isSome_search?_binding.mpr ?_⟩
    exact (htext ▸ hk).holdsBinding_insert hz hj hws hn a
  · obtain ⟨g, q, hm, hg, hq⟩ := exists_of_takes_bare htakes
    have hz' : z ∈ x ++ y := List.mem_append.mpr (hj.mem.imp List.mem_of_getLast? List.mem_of_head?)
    simp only [← htext, hm, List.mem_append, List.mem_singleton] at hz'
    rcases hz' with h | h | h
    · exact absurd h himport
    · exact absurd h (not_mem_of_isBlank hz hg)
    · exact absurd h (ne_of_isModuleQuote hz hq)
  · exact reports_of_takes_call hmem htakes htext hj himport hws
  · exact reports_of_takes_call hmem htakes htext hj hrequire hws

/-- An import with an equals sign in its clause is reported. -/
theorem blames_assigning (trusted : Text) :
    DenyCategory.externalImport.Blames trusted []
      ("import a".toList ++ "=b from \x22".toList) [] := by
  cases trusted with
  | nil => exact ⟨_, rfl, rfl, rfl⟩
  | cons d trusted =>
    cases trusted with
    | nil => exact ⟨_, rfl, rfl, rfl⟩
    | cons e trusted => exact ⟨_, rfl, rfl, rfl⟩

/-- What follows the first word of that import with blanks in its clause. The word begins with a
letter that the text has only once. -/
theorem rest_of_assigning (hws : ∀ d ∈ ws, isBlank d = true)
    (he : "import a".toList ++ (ws ++ "=b from \x22".toList) = a ++ (importWord ++ r)) :
    r = " a".toList ++ (ws ++ "=b from \x22".toList) := by
  have honce : 'i' ∉ "mport a".toList ++ (ws ++ "=b from \x22".toList) := by
    simp only [List.mem_append, not_or]
    exact ⟨by decide, fun hm => absurd (hws _ hm) (by decide), by decide⟩
  have hword : [] ++ 'i' :: ("mport a".toList ++ (ws ++ "=b from \x22".toList)) =
      a ++ 'i' :: ("mport".toList ++ r) := he
  obtain ⟨-, -, hrest⟩ := (List.append_cons_inj_of_notMem List.not_mem_nil honce).mp hword
  exact ((List.append_right_inj "mport".toList).mp hrest).symm

/-- With a newline in its clause that import is not reported. -/
theorem not_reports_assigning (hws : ∀ d ∈ ws, isBlank d = true) (hn : '\n' ∈ ws) :
    ¬ Text.Reports ("import a".toList ++ (ws ++ "=b from \x22".toList)) trusted
      .externalImport := by
  have hparen : '(' ∉ "import a".toList ++ (ws ++ "=b from \x22".toList) := by
    simp only [List.mem_append, not_or]
    exact ⟨by decide, fun hm => absurd (hws _ hm) (by decide), by decide⟩
  rw [reports_externalImport_iff hparen]
  rintro (⟨a, m, b, he, ⟨d, g, f, rfl, -, hg, hf⟩, -⟩ | ⟨a, b, he, -, g, q, r, rfl, hne, hg, hq, -⟩)
  · have hrest := rest_of_assigning hws he
    -- the second word, too, begins with a letter that the text has only once
    have hbefore : 'f' ∉ " a".toList ++ (ws ++ "=b ".toList) := by
      simp only [List.mem_append, not_or]
      exact ⟨by decide, fun hm => absurd (hws _ hm) (by decide), by decide⟩
    have hbehind : 'f' ∉ "rom \x22".toList := by decide
    have hm : " a".toList ++ (ws ++ "=b ".toList) = d :: (g ++ f) :=
      ((List.append_cons_inj_of_notMem hbefore hbehind).mp
        (by simpa [fromWord] using hrest.symm)).1
    cases g with
    | nil =>
      have hmem : '\n' ∈ f := by
        rw [List.nil_append] at hm
        rw [← (List.cons.inj hm).2]
        simp [hn]
      exact absurd (hf _ hmem) (by decide)
    | cons e g =>
      obtain ⟨-, hm⟩ := List.cons.inj hm
      obtain ⟨rfl, -⟩ := List.cons.inj hm
      exact absurd (hg _ List.mem_cons_self) (by decide)
  · have hrest := rest_of_assigning hws he
    obtain ⟨d, g, rfl⟩ := List.exists_cons_of_ne_nil hne
    obtain ⟨-, hrest⟩ := List.cons.inj hrest
    cases g with
    | nil =>
      obtain ⟨rfl, -⟩ := List.cons.inj hrest
      exact absurd hq (by decide)
    | cons e g =>
      obtain ⟨rfl, -⟩ := List.cons.inj hrest
      exact absurd (hg _ (List.mem_cons_of_mem _ List.mem_cons_self)) (by decide)

/-- Blanks at a joint of a piece leave the category reported, unless they stand beside a dot or, in
an import, hold a newline. In front of a parenthesis or an equals sign, and behind them, blanks are
read over. A dot is a part of a denied word, and the word is not found with blanks in it: whatever
the piece, it goes unreported somewhere, namely by itself. -/
theorem survives_joint (trusted : Text) (hne : ws ≠ []) (hws : ∀ d ∈ ws, isBlank d = true) :
    (∀ c : DenyCategory, c ≠ .externalImport → ∀ z x y a b, isMark z = true → IsJoint z x y →
      c.Blames trusted a (x ++ y) b → (c.Survives trusted x y ws ↔ z ≠ '.')) ∧
    ((∀ z x y, isMark z = true → IsJoint z x y →
      DenyCategory.externalImport.Survives trusted x y ws) ↔ '\n' ∉ ws) := by
  refine ⟨fun c hc z x y a b hz hj h => c.survives_iff hc hz hj h hne hws, fun hall hn => ?_,
    fun hn z x y hz hj => DenyCategory.survives_externalImport hz hj hws hn⟩
  have hj : IsJoint '=' "import a".toList "=b from \x22".toList := by
    exact .inl ⟨⟨'a', rfl, by decide⟩, rfl⟩
  have hreports := hall '=' _ _ rfl hj [] [] (blames_assigning trusted)
  rw [List.nil_append, List.append_nil] at hreports
  exact not_reports_assigning hws hn hreports

theorem survives_joint_blank :
    [' '] ≠ ([] : Text) ∧ (∀ d ∈ [' '], isBlank d = true) ∧
      DenyCategory.domManipulation.violation? trustedModule "document.write(x)".toList =
        some "document.write".toList ∧
      ¬ DenyCategory.domManipulation.Survives trustedModule "document".toList ".write".toList
        [' '] ∧
      ¬ Text.Reports "document .write(x)".toList trustedModule .domManipulation ∧
      DenyCategory.htmlInjection.Survives trustedModule ".innerHTML".toList "=".toList [' '] := by
  have hblank : ∀ d ∈ [' '], isBlank d = true := by decide
  have hsurvives := survives_joint trustedModule (List.cons_ne_nil ' ' []) hblank
  have hwrite : DenyCategory.domManipulation.Blames trustedModule []
      ("document".toList ++ ".write".toList) "(x)".toList := ⟨_, rfl, rfl, rfl⟩
  have hassign : DenyCategory.htmlInjection.Blames trustedModule "a".toList
      (".innerHTML".toList ++ "=".toList) [] := ⟨_, rfl, rfl, rfl⟩
  refine ⟨by decide, hblank, hwrite.violation?_eq, ?_, ?_, ?_⟩
  · rw [hsurvives.1 .domManipulation (by decide) '.' _ _ _ _ rfl
      (.inl ⟨⟨'t', rfl, by decide⟩, rfl⟩) hwrite]
    exact not_not_intro rfl
  · rw [Text.Reports]
    decide +kernel
  · rw [hsurvives.1 .htmlInjection (by decide) '=' _ _ _ _ rfl
      (.inl ⟨⟨'L', rfl, by decide⟩, rfl⟩) hassign]
    decide

end SnippetGate
