import SnippetGate.Proofs.Balance.Tags
import SnippetGate.Proofs.Denylist.Swap

/-!
# Closing tags put into a text

The name of a closing tag may hold a denied word. But then the tag that it closes holds it too, and
what follows the name there denies it just as well.
-/

namespace SnippetGate

/-- Nothing, or the name of a tag that stands in a text. -/
def NamesTag (t name : Text) : Prop :=
  name = [] ∨ IsTagName name ∧ ∃ a r, t = a ++ '<' :: (name ++ r) ∧ EndsTagName r

/-- Whether a character can stand between closing tags: no denied word holds it, and what follows
a word is over there. -/
def isFiller (c : Char) : Bool := isBlank c || Sequel.isWall c && !isSignChar c

theorem not_isSignChar_of_isFiller {c : Char} (h : isFiller c = true) : isSignChar c = false := by
  rw [isFiller, Bool.or_eq_true, Bool.and_eq_true, Bool.not_eq_true'] at h
  exact h.elim not_isSignChar_of_isBlank And.right

/-- Closing tags of a text's tags, with fillers among them. -/
inductive Closers (t : Text) : Text → Prop where
  | nil : Closers t []
  | filler {z : Char} {y : Text} : isFiller z = true → Closers t y → Closers t (z :: y)
  | tag {name y : Text} : NamesTag t name → Closers t y →
      Closers t ('<' :: '/' :: (name ++ '>' :: y))

namespace Closers

variable {t w y y₁ y₂ : Text}

theorem fillers {g : Text} (hg : ∀ z ∈ g, isFiller z = true) (h : Closers t y) :
    Closers t (g ++ y) := by
  induction g with
  | nil => exact h
  | cons z g ih =>
    obtain ⟨hz, hg⟩ := List.forall_mem_cons.mp hg
    exact .filler hz (ih hg)

theorem append {u : Text} (h : Closers t y) (hu : Closers t u) : Closers t (y ++ u) := by
  induction h with
  | nil => exact hu
  | filler hz _ ih => exact .filler hz ih
  | tag hn _ ih =>
    rw [List.cons_append, List.cons_append, List.append_assoc, List.cons_append]
    exact .tag hn ih

theorem flatMap {α : Type} {f : α → Text} {xs : List α} (h : ∀ x ∈ xs, Closers t (f x)) :
    Closers t (xs.flatMap f) := by
  induction xs with
  | nil => exact .nil
  | cons x xs ih =>
    obtain ⟨hx, hxs⟩ := List.forall_mem_cons.mp h
    exact hx.append (ih hxs)

theorem head (h : Closers t y) : ∀ z ∈ y.head?, isSignChar z = false := by
  intro z hz
  cases h with
  | nil => cases hz
  | filler hf _ =>
    obtain rfl := Option.some.inj hz
    exact not_isSignChar_of_isFiller hf
  | tag _ _ =>
    obtain rfl := Option.some.inj hz
    decide

theorem closed {r : Text} (h : Closers t y) (hr : Sequel.Closed r) : Sequel.Closed (y ++ r) := by
  induction h with
  | nil => exact hr
  | @filler z y hz _ ih =>
    rw [isFiller, Bool.or_eq_true, Bool.and_eq_true] at hz
    rcases hz with hz | ⟨hz, -⟩
    · exact ih.blanks_append (g := [z]) (List.forall_mem_singleton.mpr hz)
    · exact Sequel.closed_cons hz
  | tag _ _ _ => exact Sequel.closed_cons (by decide)

/-- No word begins with a character that no word holds. -/
theorem drop_sign {z : Char} (hw : w ∈ deniedWords) (hz : isSignChar z = false)
    (he : z :: y = y₁ ++ (w ++ y₂)) : ∃ q, y₁ = z :: q ∧ y = q ++ (w ++ y₂) := by
  cases y₁ with
  | nil =>
    obtain ⟨c, w, rfl⟩ := List.exists_cons_of_ne_nil (word_ne_nil hw)
    obtain rfl : z = c := (List.cons.inj he).1
    have := isSignChar_of_mem_word hw List.mem_cons_self
    simp [hz] at this
  | cons c q =>
    obtain ⟨rfl, hq⟩ := List.cons.inj he
    exact ⟨q, rfl, hq⟩

/-- A denied word among the closing tags stands in the name of one. -/
theorem exists_name (h : Closers t y) (hw : w ∈ deniedWords) (he : y = y₁ ++ (w ++ y₂)) :
    ∃ n₁ n₂ p q, NamesTag t (n₁ ++ (w ++ n₂)) ∧ y₁ = p ++ '/' :: n₁ ∧ y₂ = n₂ ++ '>' :: q := by
  induction h generalizing y₁ with
  | nil =>
    obtain ⟨-, hnil⟩ := List.append_eq_nil_iff.mp he.symm
    exact absurd (List.append_eq_nil_iff.mp hnil).1 (word_ne_nil hw)
  | filler hz _ ih =>
    obtain ⟨q, rfl, rfl⟩ := drop_sign hw (not_isSignChar_of_isFiller hz) he
    obtain ⟨n₁, n₂, p, q, hn, rfl, rfl⟩ := ih rfl
    exact ⟨n₁, n₂, _ :: p, q, hn, rfl, rfl⟩
  | @tag name y hname _ ih =>
    obtain ⟨_, rfl, he₁⟩ := drop_sign hw (by decide) he
    obtain ⟨k, rfl, he₂⟩ := drop_sign hw (by decide) he₁
    have hparts : Parts name ('>' :: y) := parts_of_head fun z hz => by
      obtain rfl := Option.some.inj hz
      decide
    rcases hparts.cases hw he₂ with ⟨n₂, rfl, rfl⟩ | ⟨a, ha, rfl⟩
    · exact ⟨k, n₂, ['<'], y, hname, rfl, rfl⟩
    · obtain ⟨q, rfl, rfl⟩ := drop_sign hw (by decide) ha
      obtain ⟨n₁, n₂, p, q, hn, rfl, rfl⟩ := ih rfl
      exact ⟨n₁, n₂, '<' :: '/' :: (name ++ '>' :: p), q, hn, by simp, rfl⟩

end Closers

namespace Sequel

variable {s : Sequel} {n p r : Text}

/-- Whether the state is that of a sequel of which nothing is read. -/
def isWhole : Sequel → Bool
  | met | edge | assignment | call | timer | gap => true
  | _ => false

theorem isWhole_of_mem {s : Sign} (h : s ∈ Sign.all) : s.sequel.isWhole = true :=
  (by decide : ∀ s ∈ Sign.all, s.sequel.isWhole = true) s h

/-- A character of a tag's name leaves nothing open. -/
theorem step_of_isTagNameChar {x : Char} (hs : s.isWhole = true) (hx : isTagNameChar x = true) :
    s.step x = met ∨ s.step x = missed := by
  have hblank : isBlank x = false := not_isBlank_of_isTagNameChar hx
  have hne {c : Char} (hc : isTagNameChar c = false) : (x == c) = false := by
    rw [beq_eq_false_iff_ne]
    rintro rfl
    simp [hx] at hc
  cases s with
  | met => exact .inl rfl
  | edge =>
    rw [step]
    split
    · exact .inr rfl
    · exact .inl rfl
  | assignment => exact .inr (by simp [step, seek, hne (c := '=') (by decide), hblank])
  | call => exact .inr (by simp [step, seek, hne (c := '(') (by decide), hblank])
  | timer => exact .inr (by simp [step, seek, hne (c := '(') (by decide), hblank])
  | gap => exact .inr (by simp [step, hblank])
  | missed => cases hs
  | code => cases hs
  | module => cases hs
  | other n => cases hs

/-- What is met before the end of a closing tag is met before the end of any tag's name. -/
theorem holds_of_tagName (hs : s.isWhole = true) (hn : ∀ x ∈ n, isTagNameChar x = true)
    (hr : EndsTagName r) (h : s.Holds (n ++ '>' :: p)) : s.Holds (n ++ r) := by
  cases n with
  | nil =>
    cases s with
    | met => exact holds_met
    | edge =>
      cases r with
      | nil => rfl
      | cons c r =>
        have hc : isWord c = false := by
          have := hr c rfl
          simp only [isTagNameChar, Bool.or_eq_false_iff] at this
          exact this.1.1.1
        rw [List.nil_append, holds_cons, step, hc]
        exact holds_met
    | assignment => exact absurd h not_holds_missed
    | call => exact absurd h not_holds_missed
    | timer => exact absurd h not_holds_missed
    | gap => exact absurd h not_holds_missed
    | missed => cases hs
    | code => cases hs
    | module => cases hs
    | other n => cases hs
  | cons x n =>
    rw [List.cons_append, holds_cons] at h ⊢
    rcases step_of_isTagNameChar hs (hn x List.mem_cons_self) with hx | hx
    · simp [hx]
    · simp [hx] at h

end Sequel

/-- A sign in the closing tag of a tag stands in the tag as well. -/
theorem NamesTag.sign_in {s : Sign} {t n₁ n₂ p : Text} (hs : s ∈ Sign.all)
    (h : NamesTag t (n₁ ++ (s.word ++ n₂))) (ha : ∀ z ∈ n₁.getLast?, s.apart z = false)
    (hq : s.sequel.Holds (n₂ ++ '>' :: p)) : s.In t := by
  rcases h with h | ⟨hname, a, r, rfl, hr⟩
  · simp only [List.append_eq_nil_iff] at h
    exact absurd h.2.1 (word_ne_nil (mem_deniedWords hs))
  · refine ⟨a ++ '<' :: n₁, s.word ++ (n₂ ++ r), by simp, fun z hz => ?_, n₂ ++ r, rfl,
      Sequel.holds_of_tagName (Sequel.isWhole_of_mem hs) (fun x hx => ?_) hr hq⟩
    · rw [List.getLast?_append_of_ne_nil a (List.cons_ne_nil _ _)] at hz
      by_cases hne : n₁ = []
      · subst hne
        obtain rfl := Option.some.inj hz
        exact apart_eq_false hs (by decide)
      · rw [List.getLast?_cons_of_ne_nil hne] at hz
        exact ha z hz
    · exact hname.isTagNameChar x (by simp [hx])

/-- Closing tags of a text's own tags, put into it, leave only imports to be shown. -/
theorem Swap.deniedFor_of_closers {P : Text → Text → Prop} {l x y r : Text} (h : Swap l x y r)
    (hy : Closers (l ++ (x ++ r)) y)
    (hbefore : ∀ m b₁, P m (b₁ ++ (y ++ r)) → P m (b₁ ++ (x ++ r)))
    (hcross : ∀ a m₁ m₂ b, l = a ++ (importWord ++ m₁) → r = m₂ ++ (fromWord ++ b) →
      Sequel.gap.Holds b → Clause (m₁ ++ (y ++ m₂)) → P (m₁ ++ (y ++ m₂)) b →
      Clause (m₁ ++ (x ++ m₂)) ∧ P (m₁ ++ (x ++ m₂)) b)
    (hd : DeniedFor P (l ++ (y ++ r))) : DeniedFor P (l ++ (x ++ r)) := by
  refine h.deniedFor (fun s hs y₁ y₂ he ha hq => ?_) (fun w y₁ y₂ hw he z hz => ?_) hbefore hcross
    hd
  · obtain ⟨n₁, n₂, p, q, hn, rfl, rfl⟩ := hy.exists_name (mem_deniedWords hs) he
    refine hn.sign_in hs (fun z hz => ha z ?_) (p := q ++ r) (by simpa using hq)
    have hne : n₁ ≠ [] := by
      rintro rfl
      cases hz
    rwa [← List.append_assoc, List.getLast?_append_of_ne_nil _ (List.cons_ne_nil _ _),
      List.getLast?_cons_of_ne_nil hne]
  · have hmem : w ∈ deniedWords := by rcases hw with rfl | rfl <;> decide
    obtain ⟨n₁, n₂, p, q, hn, rfl, rfl⟩ := hy.exists_name hmem he
    have hname : ∀ x ∈ n₂, isTagNameChar x = true := by
      rcases hn with hn | ⟨hn, -⟩
      · simp only [List.append_eq_nil_iff] at hn
        exact absurd hn.2.1 (word_ne_nil hmem)
      · exact fun x hx => hn.isTagNameChar x (by simp [hx])
    cases n₂ with
    | nil =>
      obtain rfl := Option.some.inj hz
      decide
    | cons c n₂ =>
      obtain rfl := Option.some.inj hz
      exact not_isBlank_of_isTagNameChar (hname c List.mem_cons_self)

end SnippetGate
