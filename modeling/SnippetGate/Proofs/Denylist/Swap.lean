import SnippetGate.Proofs.Denylist.Signs
import SnippetGate.Proofs.Text.Classes

/-!
# Putting one piece of a text in place of another

A swap puts `y` where `x` stood, between `l` and `r`. It brings no denied code about if no denied
word goes across the ends of `y`, and if what has to follow a word is met before `x` whenever it is
met before `y`.
-/

namespace SnippetGate

/-! ### Words that go across the end of a text -/

/-- The words of all signs and of an import. -/
def deniedWords : List Text := importWord :: fromWord :: Sign.all.map Sign.word

/-- Whether a denied word can hold the character. -/
def isSignChar (c : Char) : Bool := c.isAlpha || c == '.'

theorem word_ne_nil {w : Text} (h : w ∈ deniedWords) : w ≠ [] :=
  (by decide : ∀ w ∈ deniedWords, w ≠ []) w h

theorem isSignChar_of_mem_word {w : Text} (h : w ∈ deniedWords) {x : Char} (hx : x ∈ w) :
    isSignChar x = true :=
  (by decide : ∀ w ∈ deniedWords, ∀ x ∈ w, isSignChar x = true) w h x hx

theorem mem_deniedWords {s : Sign} (h : s ∈ Sign.all) : s.word ∈ deniedWords :=
  List.mem_cons_of_mem _ (List.mem_cons_of_mem _ (List.mem_map_of_mem h))

theorem not_isSignChar_of_isBlank {c : Char} (h : isBlank c = true) : isSignChar c = false := by
  have halpha : c.isAlpha = false := by
    cases ha : c.isAlpha with
    | false => rfl
    | true => simp [not_isBlank_of_isAlpha ha] at h
  rw [isSignChar, halpha, beq_eq_false_of_isBlank h (by decide)]
  rfl

theorem Sign.afterMember_of_isBlank {c : Char} (h : isBlank c = true) :
    Sign.afterMember c = false := by
  rw [Sign.afterMember, not_isNameChar_of_isBlank h, beq_eq_false_of_isBlank h (by decide)]
  rfl

/-- No denied word goes across from `u` to `v`. -/
def Parts (u v : Text) : Prop :=
  ∀ w ∈ deniedWords, ∀ c d, w = c ++ d → c ≠ [] → d ≠ [] → c <:+ u → ¬ d <+: v

variable {u v w a b : Text}

/-- A word of a text in two parts stands in one of them. -/
theorem Parts.cases (h : Parts u v) (hw : w ∈ deniedWords) (he : u ++ v = a ++ (w ++ b)) :
    (∃ b₁, u = a ++ (w ++ b₁) ∧ b = b₁ ++ v) ∨ ∃ a₂, v = a₂ ++ (w ++ b) ∧ a = u ++ a₂ := by
  rcases List.append_eq_append_iff.mp he with ⟨c, rfl, rfl⟩ | ⟨c, rfl, hc⟩
  · exact .inr ⟨c, rfl, rfl⟩
  · rcases List.append_eq_append_iff.mp hc with ⟨d, rfl, rfl⟩ | ⟨d, rfl, rfl⟩
    · exact .inl ⟨d, rfl, rfl⟩
    · by_cases hc : c = []
      · subst hc
        exact .inr ⟨[], by simp⟩
      · by_cases hd : d = []
        · subst hd
          exact .inl ⟨[], by simp⟩
        · exact absurd (List.prefix_append d b)
            (h _ hw c d rfl hc hd (List.suffix_append a c))

theorem parts_nil_right (u : Text) : Parts u [] :=
  fun _ _ _ _ _ _ hd _ h => hd (List.prefix_nil.mp h)

/-- No word goes on to a character that no word holds. -/
theorem parts_of_head (h : ∀ x ∈ v.head?, isSignChar x = false) : Parts u v := by
  rintro w hw c d rfl - hd - ⟨r, rfl⟩
  obtain ⟨x, d, rfl⟩ := List.exists_cons_of_ne_nil hd
  have := isSignChar_of_mem_word hw (x := x) (by simp)
  simp [h x rfl] at this

/-- No word comes from a character that no word holds. -/
theorem parts_of_getLast (h : ∀ x ∈ u.getLast?, isSignChar x = false) : Parts u v := by
  rintro w hw c d rfl hc - ⟨l, rfl⟩ -
  have hx : c.getLast hc ∈ (l ++ c).getLast? := by
    rw [List.getLast?_append_of_ne_nil l hc, List.getLast?_eq_some_getLast hc]
    rfl
  have := isSignChar_of_mem_word hw (List.mem_append_left d (List.getLast_mem hc))
  simp [h _ hx] at this

/-- Whether the last character of a text, if there is one, is of the class. -/
def endsIn (p : Char → Bool) (t : Text) : Bool := t.getLast?.all p

/-- Whether two texts can begin in one place. -/
def agree (s t : Text) : Bool := s.isPrefixOf t || t.isPrefixOf s

theorem agree_of_append {s t r q : Text} (h : s ++ r = t ++ q) : agree s t = true := by
  rw [agree, Bool.or_eq_true, List.isPrefixOf_iff_prefix, List.isPrefixOf_iff_prefix]
  exact List.prefix_or_prefix_of_prefix ⟨r, rfl⟩ ⟨q, h.symm⟩

/-- The parts of a word before and behind each of its places. -/
def cuts (w : Text) : List (Text × Text) :=
  (List.range w.length).map fun i => (w.take i, w.drop i)

theorem mem_cuts {c d : Text} (hd : d ≠ []) : (c, d) ∈ cuts (c ++ d) := by
  refine List.mem_map.mpr ⟨c.length, List.mem_range.mpr ?_, by simp⟩
  rw [List.length_append]
  exact Nat.lt_add_of_pos_right (List.length_pos_of_ne_nil hd)

/-- A word that comes from a character of the class `p` and goes on like `s`. -/
def runsInto (p : Char → Bool) (s : Text) : Bool :=
  deniedWords.any fun w => (cuts w).any fun (c, d) => !c.isEmpty && endsIn p c && agree d s

/-- No word comes from a character of the class and goes on to the text. -/
theorem parts_of_runsInto {p : Char → Bool} {s : Text} (h : runsInto p s = false)
    (hu : ∀ x ∈ u.getLast?, p x = true) : Parts u (s ++ v) := by
  rintro w hw c d rfl hc hd ⟨l, rfl⟩ ⟨r, hr⟩
  have hall := List.any_eq_false.mp h _ hw
  refine hall (List.any_eq_true.mpr ⟨_, mem_cuts hd, ?_⟩)
  have hp : endsIn p c = true := by
    rw [List.getLast?_append_of_ne_nil l hc, List.getLast?_eq_some_getLast hc] at hu
    rw [endsIn, List.getLast?_eq_some_getLast hc]
    exact hu _ rfl
  simp [hc, hp, agree_of_append hr]

/-- A word that ends a text in part and goes on with a character of the class `p`. -/
def runsOut (s : Text) (p : Char → Bool) : Bool :=
  deniedWords.any fun w => (cuts w).any fun (c, d) =>
    !c.isEmpty && c.isSuffixOf s && d.head?.all p

/-- No word goes out of the text to a character of the class. -/
theorem parts_of_runsOut {p : Char → Bool} (h : runsOut u p = false)
    (hv : ∀ x ∈ v.head?, p x = true) : Parts u v := by
  rintro w hw c d rfl hc hd hs ⟨r, rfl⟩
  have hall := List.any_eq_false.mp h _ hw
  refine hall (List.any_eq_true.mpr ⟨_, mem_cuts hd, ?_⟩)
  obtain ⟨x, d, rfl⟩ := List.exists_cons_of_ne_nil hd
  have hx : p x = true := hv x rfl
  simp [hc, hs, hx]

/-! ### Continuations that meet the same sequels -/

namespace Sequel

/-- Whether a character decides about every sequel. -/
def isDecisive (c : Char) : Bool :=
  !isBlank c && c != '(' && !isModuleQuote c && !trustedModule.contains c

/-- A wall is a character that decides as the end of the text does. -/
def isWall (c : Char) : Bool := isDecisive c && c != '=' && !isCodeQuote c && !isWord c

variable {s : Sequel} {x : Char} {t : Text}

theorem seek_of_isDecisive {p : Char → Bool} {next : Sequel} (hx : isDecisive x = true) :
    s.seek p next x = if p x then next else missed := by
  simp only [isDecisive, Bool.and_eq_true, Bool.not_eq_true'] at hx
  rw [seek, hx.1.1.1, if_neg Bool.false_ne_true]

theorem step_other_of_isDecisive {n : Nat} (hx : isDecisive x = true) : (other n).step x = met := by
  simp only [isDecisive, Bool.and_eq_true, Bool.not_eq_true'] at hx
  rw [step]
  split
  · rw [hx.1.2, if_neg Bool.false_ne_true]
  · next y hy =>
    rw [if_neg]
    rintro rfl
    have := List.mem_of_getElem? hy
    simp [this] at hx

/-- A decisive character leaves nothing open. -/
theorem step_of_isDecisive (hx : isDecisive x = true) : s.step x = met ∨ s.step x = missed := by
  have hpar : (x == '(') = false := by simp_all [isDecisive]
  have hquote : isModuleQuote x = false := by simp_all [isDecisive]
  have hblank : isBlank x = false := by simp_all [isDecisive]
  have hseek (s : Sequel) (p : Char → Bool) :
      s.seek p met x = met ∨ s.seek p met x = missed := by
    rw [seek_of_isDecisive hx]
    split
    · exact .inl rfl
    · exact .inr rfl
  cases s with
  | met => exact .inl rfl
  | missed => exact .inr rfl
  | edge =>
    rw [step]
    split
    · exact .inr rfl
    · exact .inl rfl
  | assignment => exact hseek assignment (· == '=')
  | call => exact hseek call (· == '(')
  | timer => exact .inr (by rw [step, seek_of_isDecisive hx, hpar, if_neg Bool.false_ne_true])
  | code => exact hseek code isCodeQuote
  | gap => exact .inr (by rw [step, hblank, if_neg Bool.false_ne_true])
  | module => exact .inr (by rw [step, seek_of_isDecisive hx, hquote, if_neg Bool.false_ne_true])
  | other n => exact .inl (step_other_of_isDecisive hx)

theorem holds_of_isDecisive (hx : isDecisive x = true) {u : Text} (h : s.Holds (x :: t)) :
    s.Holds (x :: u) := by
  rw [holds_cons] at h ⊢
  rcases step_of_isDecisive (s := s) hx with hs | hs
  · simp [hs]
  · simp [hs] at h

/-- A wall decides as the end of the text does. -/
theorem step_of_isWall (hx : isWall x = true) : s.step x = if s.atEnd then met else missed := by
  simp only [isWall, Bool.and_eq_true, Bool.not_eq_true', bne_iff_ne] at hx
  obtain ⟨⟨⟨hd, heq⟩, hcode⟩, hword⟩ := hx
  have hpar : (x == '(') = false := by simp_all [isDecisive]
  have hquote : isModuleQuote x = false := by simp_all [isDecisive]
  have hblank : isBlank x = false := by simp_all [isDecisive]
  have hassign : (x == '=') = false := by simpa using heq
  cases s with
  | met => rfl
  | missed => rfl
  | edge => simp [step, hword, atEnd]
  | other n => rw [step_other_of_isDecisive hd]; rfl
  | _ => simp [step, seek_of_isDecisive hd, hassign, hpar, hcode, hblank, hquote, atEnd]

theorem atEnd_step_of_isBlank (hx : isBlank x = true) : (s.step x).atEnd = s.atEnd := by
  have hseek (s : Sequel) (p : Char → Bool) (next : Sequel) (hp : p x = false) :
      s.seek p next x = s := by rw [seek, hp, if_neg Bool.false_ne_true, if_pos hx]
  have hne {c : Char} (hc : isBlank c = false) : (x == c) = false := beq_eq_false_of_isBlank hx hc
  have hquote : isModuleQuote x = false := by
    simp [isModuleQuote, hne (c := '\x22') (by decide), hne (c := '\x27') (by decide)]
  have hcode : isCodeQuote x = false := by
    simp [isCodeQuote, hne (c := '\x22') (by decide), hne (c := '\x27') (by decide),
      hne (c := '\x60') (by decide)]
  cases s with
  | met => rfl
  | missed => rfl
  | edge => simp [step, not_isWord_of_isBlank hx, atEnd]
  | assignment => rw [step, hseek _ (· == '=') _ (hne (c := '=') (by decide))]
  | call => rw [step, hseek _ (· == '(') _ (hne (c := '(') (by decide))]
  | timer => rw [step, hseek _ (· == '(') _ (hne (c := '(') (by decide))]
  | code => rw [step, hseek _ _ _ hcode]
  | gap => rw [step, if_pos hx]; rfl
  | module => rw [step, hseek _ _ _ hquote]
  | other n =>
    rw [step]
    split
    · rw [hquote, if_neg Bool.false_ne_true]; rfl
    · split <;> rfl

/-- Blanks, and then the end of the text or a wall. -/
def Closed (t : Text) : Prop :=
  ∃ g u, t = g ++ u ∧ (∀ x ∈ g, isBlank x = true) ∧ ∀ x ∈ u.head?, isWall x = true

theorem closed_nil : Closed [] := ⟨[], [], rfl, nofun, nofun⟩

theorem closed_cons (hx : isWall x = true) : Closed (x :: t) :=
  ⟨[], x :: t, rfl, nofun, fun _ hy => Option.some.inj hy ▸ hx⟩

theorem closed_blanks (h : ∀ x ∈ t, isBlank x = true) : Closed t :=
  ⟨t, [], (List.append_nil t).symm, h, nofun⟩

theorem Closed.blanks_append {g : Text} (hg : ∀ x ∈ g, isBlank x = true) (h : Closed t) :
    Closed (g ++ t) := by
  obtain ⟨k, u, rfl, hk, hu⟩ := h
  exact ⟨g ++ k, u, by simp, List.forall_mem_append.mpr ⟨hg, hk⟩, hu⟩

/-- A closed continuation decides as the end of the text does. -/
theorem Closed.holds_iff (h : Closed t) : s.Holds t ↔ s.atEnd = true := by
  obtain ⟨g, u, rfl, hg, hu⟩ := h
  induction g generalizing s with
  | nil =>
    cases u with
    | nil => exact Iff.rfl
    | cons x u =>
      rw [List.nil_append, holds_cons, step_of_isWall (hu x rfl)]
      split <;> simp_all
  | cons x g ih =>
    rw [List.cons_append, holds_cons, ih (List.forall_mem_cons.mp hg).2,
      atEnd_step_of_isBlank (hg x List.mem_cons_self)]

theorem Closed.holds (h : Closed t) {u : Text} (hu : Closed u) (hs : s.Holds t) : s.Holds u :=
  hu.holds_iff.mpr (h.holds_iff.mp hs)

end Sequel

/-! ### Swaps -/

/-- What stands apart from a sign is a character of a name or a member access. -/
theorem apart_eq_false {s : Sign} (h : s ∈ Sign.all) {z : Char} (hz : Sign.afterMember z = false) :
    s.apart z = false := by
  have hname : Sign.afterName z = false := by
    simp only [Sign.afterMember, Bool.or_eq_false_iff] at hz
    exact hz.1
  have hall : ∀ s ∈ Sign.all,
      s.apart = Sign.anywhere ∨ s.apart = Sign.afterName ∨ s.apart = Sign.afterMember := by
    simp [Sign.all, DenyCategory.all, DenyCategory.signs]
  rcases hall s h with h | h | h
  · rw [h]; rfl
  · rw [h, hname]
  · rw [h, hz]

/-- The piece `y` can take the place of `x` between `l` and `r`. -/
structure Swap (l x y r : Text) : Prop where
  left : Parts l (y ++ r)
  right : Parts y r
  sequel : ∀ s : Sequel, s.Holds (y ++ r) → s.Holds (x ++ r)
  fresh : (∀ z ∈ r.head?, isSignChar z = false) ∨
    x ≠ [] ∧ (x.getLast? = y.getLast? ∨ ∀ z ∈ x.getLast?, Sign.afterMember z = false)

namespace Swap

variable {l x y r m a₂ : Text}

/-- What stands before a word of `r` still allows it. -/
theorem apart_of_right (h : Swap l x y r) {s : Sign} (hs : s ∈ Sign.all)
    (hw : w ∈ deniedWords) (hr : r = a₂ ++ (w ++ b))
    (ha : ∀ z ∈ (l ++ (y ++ a₂)).getLast?, s.apart z = false) :
    ∀ z ∈ (l ++ (x ++ a₂)).getLast?, s.apart z = false := by
  intro z hz
  by_cases hne : a₂ = []
  · subst hne
    rcases h.fresh with hf | ⟨hx, hf⟩
    · obtain ⟨c, w, rfl⟩ := List.exists_cons_of_ne_nil (word_ne_nil hw)
      have := isSignChar_of_mem_word hw List.mem_cons_self
      simp [hf c (by simp [hr])] at this
    · rw [List.append_nil, List.getLast?_append_of_ne_nil l hx] at hz
      rcases hf with hf | hf
      · have hy : y ≠ [] := by
          rintro rfl
          simp [hx] at hf
        rw [List.append_nil, List.getLast?_append_of_ne_nil l hy, ← hf] at ha
        exact ha z hz
      · exact apart_eq_false hs (hf z hz)
  · rw [← List.append_assoc, List.getLast?_append_of_ne_nil _ hne] at ha hz
    exact ha z hz

/-- Every sequel that is met before `y` is met before `x`. -/
theorem holds (h : Swap l x y r) {s : Sequel} {b₁ : Text} (hs : s.Holds (b₁ ++ (y ++ r))) :
    s.Holds (b₁ ++ (x ++ r)) := by
  rw [Sequel.holds_append] at hs ⊢
  exact h.sequel _ hs

/-- Where a word stands after a swap. -/
theorem cases (h : Swap l x y r) (hw : w ∈ deniedWords) (he : l ++ (y ++ r) = a ++ (w ++ b)) :
    (∃ b₁, l = a ++ (w ++ b₁) ∧ b = b₁ ++ (y ++ r)) ∨
      (∃ y₁ y₂, y = y₁ ++ (w ++ y₂) ∧ a = l ++ y₁ ∧ b = y₂ ++ r) ∨
      ∃ a₂, r = a₂ ++ (w ++ b) ∧ a = l ++ (y ++ a₂) := by
  rcases h.left.cases hw he with h' | ⟨a₁, h', rfl⟩
  · exact .inl h'
  · rcases h.right.cases hw h' with ⟨y₂, rfl, rfl⟩ | ⟨a₂, rfl, rfl⟩
    · exact .inr (.inl ⟨a₁, y₂, rfl, rfl, rfl⟩)
    · exact .inr (.inr ⟨a₂, rfl, rfl⟩)

/-- A sign after a swap was there before it, or stands inside of the new piece. -/
theorem in_or {s : Sign} (h : Swap l x y r) (hs : s ∈ Sign.all) (hin : s.In (l ++ (y ++ r))) :
    s.In (l ++ (x ++ r)) ∨ ∃ y₁ y₂, y = y₁ ++ (s.word ++ y₂) ∧
      (∀ z ∈ (l ++ y₁).getLast?, s.apart z = false) ∧ s.sequel.Holds (y₂ ++ r) := by
  obtain ⟨a, _, he, ha, b, rfl, hb⟩ := hin
  rcases h.cases (mem_deniedWords hs) he with ⟨b₁, rfl, rfl⟩ | ⟨y₁, y₂, rfl, rfl, rfl⟩ |
    ⟨a₂, rfl, rfl⟩
  · exact .inl ⟨a, s.word ++ (b₁ ++ (x ++ r)), by simp, ha, _, rfl, h.holds hb⟩
  · exact .inr ⟨y₁, y₂, rfl, ha, hb⟩
  · exact .inl ⟨l ++ (x ++ a₂), s.word ++ b, by simp,
      h.apart_of_right hs (mem_deniedWords hs) rfl ha, b, rfl, hb⟩

end Swap

/-! ### Imports after a swap -/

section

variable {l x y r m m₁ m₂ : Text}

theorem Clause.head (h : Clause m) : ∃ z ∈ m.head?, isBlank z = true := by
  obtain ⟨z, g, f, rfl, hz, -, -⟩ := h
  exact ⟨z, rfl, hz⟩

/-- A piece that begins with no blank belongs to the part of a clause that stays on its line. -/
theorem Clause.split (h : Clause (m₁ ++ (y ++ m₂))) (hne : y ≠ [])
    (hy : ∀ z ∈ y.head?, isBlank z = false) :
    ∃ c g k, m₁ = c :: (g ++ k) ∧ isBlank c = true ∧ (∀ z ∈ g, isBlank z = true) ∧
      ∀ z ∈ k ++ (y ++ m₂), isFlat z = true := by
  obtain ⟨c, g, f, he, hc, hg, hf⟩ := h
  obtain ⟨z, y, rfl⟩ := List.exists_cons_of_ne_nil hne
  have hz : isBlank z = false := hy z rfl
  cases m₁ with
  | nil =>
    obtain ⟨rfl, -⟩ := List.cons.inj he
    simp [hz] at hc
  | cons c' m₁ =>
    obtain ⟨rfl, ht⟩ := List.cons.inj he
    rcases List.append_eq_append_iff.mp ht with ⟨k, rfl, hk⟩ | ⟨k, rfl, rfl⟩
    · cases k with
      | nil =>
        rw [List.nil_append] at hk
        exact ⟨c', m₁, [], by simp, hc, by simpa using hg, by rwa [List.nil_append, hk]⟩
      | cons c k =>
        obtain ⟨rfl, -⟩ := List.cons.inj hk
        simp [hg z (by simp)] at hz
    · exact ⟨c', g, k, rfl, hc, hg, hf⟩

/-- A clause may hold any piece on one line in place of another. -/
theorem Clause.swap (h : Clause (m₁ ++ (y ++ m₂))) (hne : y ≠ [])
    (hy : ∀ z ∈ y.head?, isBlank z = false)
    (hx : (∀ z ∈ y, isFlat z = true) → ∀ z ∈ x, isFlat z = true) :
    Clause (m₁ ++ (x ++ m₂)) := by
  obtain ⟨c, g, k, rfl, hc, hg, hf⟩ := h.split hne hy
  refine ⟨c, g, k ++ (x ++ m₂), by simp, hc, hg, ?_⟩
  simp only [List.forall_mem_append] at hf ⊢
  exact ⟨hf.1, hx hf.2.1, hf.2.2⟩

/-- A clause stays on its line behind its first blanks. -/
theorem Clause.not_of_mem {z c : Char} {p q : Text} (hz : isBlank z = false) (hc : isFlat c = false)
    (hq : c ∈ q) : ¬ Clause (p ++ z :: q) := by
  intro h
  have h' : Clause (p ++ ([z] ++ q)) := h
  obtain ⟨-, -, k, -, -, -, hflat⟩ := h'.split (List.cons_ne_nil z []) fun y hy => by
    obtain rfl := Option.some.inj hy
    exact hz
  simp [hflat c (by simp [hq])] at hc

/-- An import after a swap was there before it, or goes across the new piece, or has one of its
words in it. -/
theorem Swap.import_or (h : Swap l x y r) (hi : Import (l ++ (y ++ r)) a m b) :
    (∃ b₁, b = b₁ ++ (y ++ r) ∧ Import (l ++ (x ++ r)) a m (b₁ ++ (x ++ r))) ∨
      (∃ a₂, r = a₂ ++ (importWord ++ (m ++ (fromWord ++ b))) ∧
        Import (l ++ (x ++ r)) (l ++ (x ++ a₂)) m b) ∨
      (∃ m₁ m₂, m = m₁ ++ (y ++ m₂) ∧ l = a ++ (importWord ++ m₁) ∧
        r = m₂ ++ (fromWord ++ b)) ∨
      ∃ w y₁ y₂, (w = importWord ∨ w = fromWord) ∧ y = y₁ ++ (w ++ y₂) ∧
        ∃ z ∈ (y₂ ++ r).head?, isBlank z = true := by
  obtain ⟨he, hm, hb⟩ := hi
  rcases h.cases (by decide) he with ⟨b₁, rfl, hb₁⟩ | ⟨y₁, y₂, rfl, rfl, hy⟩ | ⟨a₂, rfl, rfl⟩
  · have he' : (a ++ (importWord ++ b₁)) ++ (y ++ r) =
        (a ++ (importWord ++ m)) ++ (fromWord ++ b) := by
      rw [he]
      simp
    rcases h.cases (by decide) he' with ⟨b₂, hl, rfl⟩ | ⟨y₁, y₂, rfl, -, rfl⟩ | ⟨m₂, rfl, hl⟩
    · have hb' : b₁ = m ++ (fromWord ++ b₂) := by simpa using hl
      subst hb'
      exact .inl ⟨b₂, rfl, by simp, hm, h.holds hb⟩
    · obtain ⟨z, hz⟩ : ∃ z, z ∈ (y₂ ++ r).head? ∧ isBlank z = true := by
        cases hr : y₂ ++ r with
        | nil => simp [hr, Sequel.holds_nil, Sequel.atEnd] at hb
        | cons z q =>
          rw [hr, Sequel.holds_cons, Sequel.step] at hb
          refine ⟨z, rfl, ?_⟩
          by_contra hz
          simp [hz] at hb
      exact .inr (.inr (.inr ⟨fromWord, y₁, y₂, .inr rfl, rfl, z, hz⟩))
    · have hm' : m = b₁ ++ (y ++ m₂) := by simpa using hl
      exact .inr (.inr (.inl ⟨b₁, m₂, hm', rfl, rfl⟩))
  · obtain ⟨z, hz, hblank⟩ := hm.head
    refine .inr (.inr (.inr ⟨importWord, y₁, y₂, .inl rfl, rfl, z, ?_, hblank⟩))
    rw [← hy, List.head?_append, Option.mem_def.mp hz]
    rfl
  · exact .inr (.inl ⟨a₂, rfl, by simp, hm, hb⟩)

/-- The parts of a denial that a swap leaves to be shown: signs inside of the new piece, words of
an import inside of it, and imports before it and across it. -/
theorem Swap.deniedFor {P : Text → Text → Prop} (h : Swap l x y r)
    (hsigns : ∀ s ∈ Sign.all, ∀ y₁ y₂, y = y₁ ++ (s.word ++ y₂) →
      (∀ z ∈ (l ++ y₁).getLast?, s.apart z = false) → s.sequel.Holds (y₂ ++ r) →
      s.In (l ++ (x ++ r)))
    (hwords : ∀ w y₁ y₂, w = importWord ∨ w = fromWord → y = y₁ ++ (w ++ y₂) →
      ∀ z ∈ (y₂ ++ r).head?, isBlank z = false)
    (hbefore : ∀ m b₁, P m (b₁ ++ (y ++ r)) → P m (b₁ ++ (x ++ r)))
    (hcross : ∀ a m₁ m₂ b, l = a ++ (importWord ++ m₁) → r = m₂ ++ (fromWord ++ b) →
      Sequel.gap.Holds b → Clause (m₁ ++ (y ++ m₂)) → P (m₁ ++ (y ++ m₂)) b →
      Clause (m₁ ++ (x ++ m₂)) ∧ P (m₁ ++ (x ++ m₂)) b)
    (hd : DeniedFor P (l ++ (y ++ r))) : DeniedFor P (l ++ (x ++ r)) := by
  rcases hd with ⟨a, m, b, hi, hp⟩ | ⟨s, hs, hin⟩
  · rcases h.import_or hi with ⟨b₁, rfl, hi'⟩ | ⟨a₂, -, hi'⟩ | ⟨m₁, m₂, rfl, hl, hr⟩ |
      ⟨w, y₁, y₂, hw, hy, z, hz, hblank⟩
    · exact .inl ⟨_, _, _, hi', hbefore m b₁ hp⟩
    · exact .inl ⟨_, _, _, hi', hp⟩
    · obtain ⟨hm, hp'⟩ := hcross a m₁ m₂ b hl hr hi.sequel hi.clause hp
      exact .inl ⟨a, m₁ ++ (x ++ m₂), b, ⟨by rw [hl, hr]; simp, hm, hi.sequel⟩, hp'⟩
    · simp [hwords w y₁ y₂ hw hy z hz] at hblank
  · rcases h.in_or hs hin with h' | ⟨y₁, y₂, hy, ha, hq⟩
    · exact .inr ⟨s, hs, h'⟩
    · exact .inr ⟨s, hs, hsigns s hs y₁ y₂ hy ha hq⟩

/-- No denied word stands inside of a text. -/
def Wordless (y : Text) : Prop := ∀ w ∈ deniedWords, ¬ w <:+: y

instance : DecidablePred Wordless := fun y =>
  inferInstanceAs (Decidable (∀ w ∈ deniedWords, ¬ w <:+: y))

/-- A text of characters that no denied word holds. -/
theorem wordless_of_forall (h : ∀ z ∈ y, isSignChar z = false) : Wordless y := by
  rintro w hw ⟨p, q, rfl⟩
  obtain ⟨z, w, rfl⟩ := List.exists_cons_of_ne_nil (word_ne_nil hw)
  have := isSignChar_of_mem_word hw List.mem_cons_self
  simp [h z (by simp)] at this

/-- A swap of a piece without denied words leaves only imports to be shown. -/
theorem Swap.deniedFor_of_wordless {P : Text → Text → Prop} (h : Swap l x y r) (hy : Wordless y)
    (hbefore : ∀ m b₁, P m (b₁ ++ (y ++ r)) → P m (b₁ ++ (x ++ r)))
    (hcross : ∀ a m₁ m₂ b, l = a ++ (importWord ++ m₁) → r = m₂ ++ (fromWord ++ b) →
      Sequel.gap.Holds b → Clause (m₁ ++ (y ++ m₂)) → P (m₁ ++ (y ++ m₂)) b →
      Clause (m₁ ++ (x ++ m₂)) ∧ P (m₁ ++ (x ++ m₂)) b)
    (hd : DeniedFor P (l ++ (y ++ r))) : DeniedFor P (l ++ (x ++ r)) := by
  refine h.deniedFor (fun s hs y₁ y₂ he _ _ => ?_) (fun w y₁ y₂ hw he => ?_) hbefore hcross hd
  · exact absurd ⟨y₁, y₂, by rw [he, List.append_assoc]⟩ (hy _ (mem_deniedWords hs))
  · refine absurd ⟨y₁, y₂, by rw [he, List.append_assoc]⟩ (hy w ?_)
    rcases hw with rfl | rfl <;> decide

/-- A swap of a piece without denied words brings no denied code about. -/
theorem Swap.denied_of_wordless (h : Swap l x y r) (hy : Wordless y)
    (hcross : ∀ m₁ m₂, Clause (m₁ ++ (y ++ m₂)) → Clause (m₁ ++ (x ++ m₂)))
    (hd : Denied (l ++ (y ++ r))) : Denied (l ++ (x ++ r)) :=
  h.deniedFor_of_wordless hy (fun _ _ hp => hp)
    (fun _ m₁ m₂ _ _ _ _ hm _ => ⟨hcross m₁ m₂ hm, trivial⟩) hd

/-- A swap at the end of a text, of a piece without denied words, brings no denied code about. -/
theorem Swap.deniedFor_of_end {P : Text → Text → Prop} (h : Swap l x y []) (hy : Wordless y)
    (hP : ∀ m b b', P m b → P m b') (hd : DeniedFor P (l ++ y)) : DeniedFor P (l ++ x) := by
  rw [← List.append_nil y] at hd
  rw [← List.append_nil x]
  exact h.deniedFor_of_wordless hy (fun m b₁ => hP m _ _)
    (fun _ _ _ _ _ hr => by simp [fromWord] at hr) hd

end

end SnippetGate
