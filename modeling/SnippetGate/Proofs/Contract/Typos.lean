import SnippetGate.Proofs.Contract.ClassList
import SnippetGate.Proofs.Repair.Idle
import SnippetGate.Proofs.Repair.Typing
import SnippetGate.Proofs.Text.Replace

/-!
# What is left of a typing error

A typing error in a fixed text is gone when it has been mended. Of an event attribute one doubled
beginning is taken away, so one that is written three times is detected again. And a class list is
mended for as many words as there are passes.
-/

namespace SnippetGate.Signature

open Pattern

variable {a b d e k l r s t u v v' w : Text} {m : Match} {n : Nat}

/-! ### Event attributes -/

/-- The name of an event, with the equals sign behind it. -/
def IsEvent (e : Text) : Prop :=
  ∃ c g b, e = c :: (g ++ (b ++ ['='])) ∧ c.isUpper = true ∧ (∀ x ∈ g, x.isAlpha = true) ∧
    ∀ x ∈ b, isBlank x = true

/-- The letter that a second beginning may have. -/
def IsO (c : Char) : Prop := c = 'O' ∨ c = 'o'

/-- Behind the text a word can begin. -/
def EndsNoWord (u : Text) : Prop := ∀ x ∈ u.getLast?, isWord x = false

/-- An event attribute whose beginning is written three times. -/
def tripledEvent : Pattern :=
  all [.wordEdge, word "on", .one (fun c => c == 'O' || c == 'o'), char 'n', word "On",
    .one Char.isUpper, many Char.isAlpha, blanks, char '=']

/-- A word that begins here stands behind something else. -/
theorem wordEdge_iff {c : Char} (hc : isWord c = true) :
    (u.getLast?.any isWord ≠ (c :: r).head?.any isWord) ↔ EndsNoWord u := by
  have hword : (c :: r).head?.any isWord = true := hc
  rw [hword, ne_eq, Bool.not_eq_true]
  exact any_eq_false_iff

theorem isO_iff {c : Char} : (c == 'O' || c == 'o') = true ↔ IsO c := by simp [IsO]

theorem fits_doubledEvent : doubledEvent.Fits u w v ↔
    EndsNoWord u ∧ ∃ o e, w = 'o' :: 'n' :: o :: 'n' :: e ∧ IsO o ∧ IsEvent e := by
  constructor
  · rintro ⟨_, _, rfl, ⟨rfl, hedge⟩, _, _, rfl, hon, _, _, rfl, ⟨o, rfl, ho⟩, _, _, rfl,
      ⟨n, rfl, hn⟩, _, _, rfl, ⟨_, g, rfl, ⟨c, rfl, hc⟩, hg⟩, b, _, rfl, hb, e, rfl, he⟩
    obtain rfl := fits_text.mp hon
    obtain rfl : n = 'n' := by simpa using hn
    obtain rfl : e = '=' := by simpa using he
    exact ⟨(wordEdge_iff (by decide)).mp hedge, o, _, rfl, isO_iff.mp ho, c, g, b, rfl, hc, hg, hb⟩
  · rintro ⟨hu, o, _, rfl, ho, c, g, b, rfl, hc, hg, hb⟩
    exact ⟨[], _, rfl, ⟨rfl, (wordEdge_iff (by decide)).mpr hu⟩, "on".toList, _, rfl,
      fits_text.mpr rfl, [o], _, rfl, ⟨o, rfl, isO_iff.mpr ho⟩, ['n'], _, rfl, ⟨'n', rfl, rfl⟩,
      c :: g, b ++ ['='], rfl, ⟨[c], g, rfl, ⟨c, rfl, hc⟩, hg⟩, b, ['='], rfl, hb, '=', rfl, rfl⟩

theorem startsAt_doubledEvent : doubledEvent.StartsAt u v ↔
    EndsNoWord u ∧ ∃ o e r, v = 'o' :: 'n' :: o :: 'n' :: (e ++ r) ∧ IsO o ∧ IsEvent e := by
  rw [startsAt_iff rfl]
  constructor
  · rintro ⟨w, r, rfl, hf⟩
    obtain ⟨hu, o, e, rfl, ho, he⟩ := fits_doubledEvent.mp hf
    exact ⟨hu, o, e, r, rfl, ho, he⟩
  · rintro ⟨hu, o, e, r, rfl, ho, he⟩
    exact ⟨_, r, rfl, fits_doubledEvent.mpr ⟨hu, o, e, rfl, ho, he⟩⟩

theorem startsAt_tripledEvent : tripledEvent.StartsAt u v ↔
    EndsNoWord u ∧ ∃ o e r, v = 'o' :: 'n' :: o :: 'n' :: 'O' :: 'n' :: (e ++ r) ∧ IsO o ∧
      IsEvent e := by
  rw [startsAt_iff rfl]
  constructor
  · rintro ⟨_, r, rfl, _, _, rfl, ⟨rfl, hedge⟩, _, _, rfl, hon, _, _, rfl, ⟨o, rfl, ho⟩, _, _, rfl,
      ⟨n, rfl, hn⟩, _, _, rfl, hthird, _, _, rfl, ⟨c, rfl, hc⟩, g, _, rfl, hg, b, _, rfl, hb, e,
      rfl, he⟩
    obtain rfl := fits_text.mp hon
    obtain rfl := fits_text.mp hthird
    obtain rfl : n = 'n' := by simpa using hn
    obtain rfl : e = '=' := by simpa using he
    exact ⟨(wordEdge_iff (by decide)).mp hedge, o, _, r, rfl, isO_iff.mp ho, c, g, b, rfl, hc, hg,
      hb⟩
  · rintro ⟨hu, o, _, r, rfl, ho, c, g, b, rfl, hc, hg, hb⟩
    exact ⟨_, r, rfl, [], _, rfl, ⟨rfl, (wordEdge_iff (by decide)).mpr hu⟩, "on".toList, _, rfl,
      fits_text.mpr rfl, [o], _, rfl, ⟨o, rfl, isO_iff.mpr ho⟩, ['n'], _, rfl, ⟨'n', rfl, rfl⟩,
      "On".toList, _, rfl, fits_text.mpr rfl, [c], _, rfl, ⟨c, rfl, hc⟩, g, _, rfl, hg, b, ['='],
      rfl, hb, '=', rfl, rfl⟩

/-- What is found, and what replaces it. -/
theorem takes_doubledEvent (h : doubledEvent.Takes u m v) :
    EndsNoWord u ∧ ∃ o e, m.text = 'o' :: 'n' :: o :: 'n' :: e ∧
      "on".toList ++ m.group 1 ++ m.group 2 = 'o' :: 'n' :: e ∧ IsO o ∧ IsEvent e := by
  obtain ⟨hu, o, e, htext, ho, he⟩ := fits_doubledEvent.mp (h.fits rfl)
  obtain ⟨o', -, htext', -⟩ := doubledEvent_parts h.mem_ends
  refine ⟨hu, o, e, htext, ?_, ho, he⟩
  rw [htext] at htext'
  simp only [List.cons.injEq, true_and] at htext'
  rw [htext'.2]
  rfl

namespace IsEvent

theorem word_of_isAlpha {x : Char} (h : x.isAlpha = true) : isWord x = true := by
  simp [isWord, isAlphanumeric_of_isAlpha h]

/-- An event divides into its name and the rest, which does not hold the first letter of another
attribute. -/
theorem exists_split (h : IsEvent e) : ∃ x y, e = x ++ y ∧ (∀ c ∈ x, isWord c = true) ∧
    'o' ∉ y := by
  obtain ⟨c, g, b, rfl, hc, hg, hb⟩ := h
  refine ⟨c :: g, b ++ ['='], rfl, ?_, ?_⟩
  · refine List.forall_mem_cons.mpr ⟨word_of_isAlpha ?_, fun x hx => word_of_isAlpha (hg x hx)⟩
    rw [Char.isAlpha, hc, Bool.true_or]
  · have hb' : 'o' ∉ b := fun h => absurd (hb _ h) (by decide)
    simp [hb']

theorem getLast?_append (h : IsEvent e) (l : Text) : (l ++ e).getLast? = some '=' := by
  obtain ⟨c, g, b, rfl, -⟩ := h
  rw [← List.cons_append, ← List.append_assoc, ← List.append_assoc, List.getLast?_concat]

theorem not_isAlpha_of_end {x : Char} (hb : ∀ x ∈ b, isBlank x = true)
    (h : b ++ ['='] ++ s = x :: r) : x.isAlpha = false := by
  cases b with
  | nil =>
    obtain rfl := (List.cons.inj h).1
    decide
  | cons y b =>
    obtain rfl := (List.cons.inj h).1
    by_contra halpha
    rw [Bool.not_eq_false] at halpha
    exact absurd (hb y List.mem_cons_self) (by simp [not_isBlank_of_isAlpha halpha])

/-- If another beginning can be read at an event, it is one, and an event is behind it. -/
theorem exists_of_append {o : Char} {e' : Text} (h : IsEvent e) (h' : IsEvent e') (ho : IsO o)
    (he : e ++ s = o :: 'n' :: (e' ++ r)) :
    ∃ d, e = 'O' :: 'n' :: d ∧ IsEvent d := by
  obtain ⟨c, g, b, rfl, hc, hg, hb⟩ := h
  obtain ⟨c', g', b', rfl, hc', -⟩ := h'
  rw [List.cons_append] at he
  obtain ⟨rfl, htail⟩ := List.cons.inj he
  obtain rfl : c = 'O' := ho.resolve_right (by rintro rfl; exact absurd hc (by decide))
  cases g with
  | nil => exact absurd (not_isAlpha_of_end hb htail) (by decide)
  | cons x g =>
    obtain rfl := (List.cons.inj htail).1
    have htail := (List.cons.inj htail).2
    cases g with
    | nil =>
      have := not_isAlpha_of_end hb htail
      rw [Char.isAlpha, hc', Bool.true_or] at this
      cases this
    | cons y g =>
      obtain rfl := (List.cons.inj htail).1
      exact ⟨_, rfl, y, g, b, rfl, hc', fun x hx => hg x (by simp [hx]), hb⟩

end IsEvent

/-- Inside of an event attribute no other begins. -/
theorem not_doubled_inside {y : Text} (hw : ∀ c ∈ w, isWord c = true) (hy : 'o' ∉ y)
    (he : w ++ y = a ++ d) (ha : a ≠ []) (hd : d ≠ []) (hedge : EndsNoWord (l ++ a)) :
    ¬ doubledEvent.StartsAt k (d ++ v) := by
  intro h
  obtain ⟨-, o, e, r, hr, -⟩ := startsAt_doubledEvent.mp h
  obtain ⟨z, d, rfl⟩ := List.exists_cons_of_ne_nil hd
  obtain rfl := (List.cons.inj hr).1
  rcases List.append_eq_append_iff.mp he with ⟨c, rfl, hc⟩ | ⟨c, hc, -⟩
  · exact hy (hc ▸ List.mem_append_right c List.mem_cons_self)
  · have hmem : a.getLast ha ∈ w := hc ▸ List.mem_append_left c (List.getLast_mem ha)
    have := hedge (a.getLast ha) (by
      rw [List.getLast?_append_of_ne_nil l ha, List.getLast?_eq_some_getLast ha]
      rfl)
    rw [hw _ hmem] at this
    cases this

theorem forall_isWord_on {o : Char} (ho : IsO o) (hw : ∀ c ∈ w, isWord c = true) :
    ∀ c ∈ 'o' :: 'n' :: o :: 'n' :: w, isWord c = true := by
  simp only [List.forall_mem_cons]
  exact ⟨by decide, by decide, by rcases ho with rfl | rfl <;> decide, by decide, hw⟩

/-- An attribute that begins before a place where a word can begin ends before it. -/
theorem doubled_of_append {o : Char} (hk : k ≠ []) (hedge : EndsNoWord (u ++ k))
    (he : k ++ 'o' :: v = 'o' :: 'n' :: o :: 'n' :: (e ++ r)) (ho : IsO o) (hevent : IsEvent e)
    (s : Text) : ∃ r, k ++ s = 'o' :: 'n' :: o :: 'n' :: (e ++ r) := by
  obtain ⟨x, y, rfl, hx, hy⟩ := hevent.exists_split
  have hsplit : ('o' :: 'n' :: o :: 'n' :: x) ++ (y ++ r) = k ++ 'o' :: v := by simp [he]
  rcases List.append_eq_append_iff.mp hsplit with ⟨c, rfl, hc⟩ | ⟨c, hc, -⟩
  · obtain ⟨d, rfl, -⟩ := Text.exists_of_append_cons_eq hc.symm hy
    exact ⟨d ++ s, by simp⟩
  · have hmem : k.getLast hk ∈ 'o' :: 'n' :: o :: 'n' :: x :=
      hc ▸ List.mem_append_left c (List.getLast_mem hk)
    have := hedge (k.getLast hk) (by
      rw [List.getLast?_append_of_ne_nil u hk, List.getLast?_eq_some_getLast hk]
      rfl)
    rw [forall_isWord_on ho hx _ hmem] at this
    cases this

theorem endsNoWord_congr (h : l.getLast? = u.getLast?) : EndsNoWord l ↔ EndsNoWord u := by
  rw [EndsNoWord, EndsNoWord, h]

/-- What an event attribute with a doubled beginning is replaced by. -/
def mendedEvent (m : Match) : Text := "on".toList ++ m.group 1 ++ m.group 2

theorem getLast?_mendedEvent (h : doubledEvent.Takes u m v) (l : Text) :
    (l ++ mendedEvent m).getLast? = (u ++ m.text).getLast? := by
  obtain ⟨-, o, e, htext, hnew, -, hevent⟩ := takes_doubledEvent h
  have hl := hevent.getLast?_append (l ++ ['o', 'n'])
  have hu := hevent.getLast?_append (u ++ ['o', 'n', o, 'n'])
  rw [mendedEvent, hnew, htext]
  simpa using hl.trans hu.symm

theorem exists_mended_split (h : doubledEvent.Takes u m v) :
    ∃ x y, mendedEvent m = x ++ y ∧ (∀ c ∈ x, isWord c = true) ∧ 'o' ∉ y := by
  obtain ⟨-, o, e, -, hnew, -, hevent⟩ := takes_doubledEvent h
  obtain ⟨x, y, rfl, hx, hy⟩ := hevent.exists_split
  refine ⟨'o' :: 'n' :: x, y, hnew, ?_, hy⟩
  simp only [List.forall_mem_cons]
  exact ⟨by decide, by decide, hx⟩

theorem exists_text_split (h : doubledEvent.Takes u m v) :
    ∃ x y, m.text = x ++ y ∧ (∀ c ∈ x, isWord c = true) ∧ 'o' ∉ y := by
  obtain ⟨-, o, e, htext, -, ho, hevent⟩ := takes_doubledEvent h
  obtain ⟨x, y, rfl, hx, hy⟩ := hevent.exists_split
  exact ⟨_, y, htext, forall_isWord_on ho hx, hy⟩

/-- Where an attribute was mended one begins whose beginning is still doubled if it was written
three times. -/
theorem doubled_mendedEvent_iff (h : doubledEvent.Takes u m v) (hl : EndsNoWord l) :
    doubledEvent.StartsAt l (mendedEvent m ++ v') ↔ tripledEvent.StartsAt u (m.text ++ v) := by
  obtain ⟨hu, o, e, htext, hnew, ho, hevent⟩ := takes_doubledEvent h
  rw [mendedEvent, hnew, htext, startsAt_doubledEvent, startsAt_tripledEvent]
  constructor
  · rintro ⟨-, o', e', r, hr, ho', hevent'⟩
    simp only [List.cons_append, List.cons.injEq, true_and] at hr
    obtain ⟨d, rfl, hd⟩ := hevent.exists_of_append hevent' ho' hr
    exact ⟨hu, o, d, v, rfl, ho, hd⟩
  · rintro ⟨-, o', e', r, hr, ho', hevent'⟩
    simp only [List.cons_append, List.cons.injEq, true_and] at hr
    obtain ⟨d, rfl, hd⟩ := hevent.exists_of_append hevent' (.inl rfl) hr.2
    exact ⟨hl, 'O', d, v', rfl, .inl rfl, hd⟩

theorem startsAt_doubled_of_tripled (h : tripledEvent.StartsAt u v) :
    doubledEvent.StartsAt u v := by
  obtain ⟨hu, o, e, r, rfl, ho, c, g, b, rfl, hc, hg, hb⟩ := startsAt_tripledEvent.mp h
  refine startsAt_doubledEvent.mpr ⟨hu, o, _, r, rfl, ho, 'O', 'n' :: c :: g, b, rfl, by decide, ?_,
    hb⟩
  simp only [List.forall_mem_cons]
  exact ⟨by decide, by rw [Char.isAlpha, hc, Bool.true_or], hg⟩

/-- Each attribute that is left had its beginning written three times. -/
theorem seams_doubledEvent : Seams doubledEvent mendedEvent (fun l u => l.getLast? = u.getLast?)
    doubledEvent.StartsAt tripledEvent.StartsAt where
  append s he := Text.getLast?_append_congr s he
  swap _ h := getLast?_mendedEvent h _
  gap he hgap h := by
    rw [startsAt_doubledEvent] at hgap h
    exact (hgap (h.imp_left (endsNoWord_congr he).mp)).elim
  across {l u k v v' m} he hk hno h _ hb := by
    obtain ⟨hedge, o₁, e₁, -, hnew, -⟩ := takes_doubledEvent h
    rw [mendedEvent, hnew, startsAt_doubledEvent] at hb
    obtain ⟨hl, o, e, r, hr, ho, hevent⟩ := hb
    obtain ⟨r', hr'⟩ := doubled_of_append hk hedge hr ho hevent (m.text ++ v)
    refine (hno (startsAt_doubledEvent.mpr ⟨?_, o, e, r', hr', ho, hevent⟩)).elim
    exact (endsNoWord_congr he).mp hl
  inside {l u v v' a b m} he h _ hf hb hd := by
    by_cases ha : a = []
    · subst ha
      rw [List.nil_append] at hf
      rw [← hf, List.append_nil] at hd
      exact (doubled_mendedEvent_iff h (startsAt_doubledEvent.mp hd).1).mp hd
    · obtain ⟨x, y, hxy, hx, hy⟩ := exists_mended_split h
      exact (not_doubled_inside hx hy (hxy.symm.trans hf) ha hb (startsAt_doubledEvent.mp hd).1
        hd).elim

/-- An attribute with a beginning written three times is still doubled. -/
theorem exists_doubled_of_tripled (hr : Replaced doubledEvent mendedEvent u v v')
    (hl : l.getLast? = u.getLast?) (he : v = a ++ b) (hb : tripledEvent.StartsAt (u ++ a) b) :
    ∃ c d, v' = c ++ d ∧ doubledEvent.StartsAt (l ++ c) d := by
  have hd := startsAt_doubled_of_tripled hb
  induction hr generalizing l a with
  | rest hrest => exact (hrest a b he hd).elim
  | @piece u g v v' m hgap htakes hrest ih =>
    rcases Text.cases_of_append_eq he with ⟨k, hk, rfl, rfl⟩ | ⟨c, d, hne, rfl, hf, rfl⟩ |
      ⟨c, rfl, rfl⟩
    · exact (hgap a k rfl hk hd).elim
    · by_cases hc : c = []
      · subst hc
        rw [List.nil_append] at hf
        subst hf
        rw [List.append_nil] at hb
        refine ⟨g, mendedEvent m ++ v', rfl, (doubled_mendedEvent_iff htakes ?_).mpr hb⟩
        exact (endsNoWord_congr (Text.getLast?_append_congr g hl)).mpr
          (startsAt_tripledEvent.mp hb).1
      · obtain ⟨x, y, hxy, hx, hy⟩ := exists_text_split htakes
        rw [← List.append_assoc] at hd
        exact (not_doubled_inside hx hy (hxy.symm.trans hf) hc hne (startsAt_doubledEvent.mp hd).1
          hd).elim
    · have hsame : (l ++ (g ++ mendedEvent m)).getLast? = (u ++ (g ++ m.text)).getLast? := by
        rw [← List.append_assoc, ← List.append_assoc, getLast?_mendedEvent htakes]
      have hassoc : u ++ (g ++ (m.text ++ c)) = u ++ (g ++ m.text) ++ c := by simp
      rw [hassoc] at hb hd
      obtain ⟨c', d', rfl, hd'⟩ := ih hsame rfl hb hd
      exact ⟨g ++ (mendedEvent m ++ c'), d', by simp, by simpa using hd'⟩

/-- What is left of the attributes with a doubled beginning: those that had a third. -/
theorem occursIn_doubledEvent_iff (t : Text) :
    doubledEvent.occursIn (doubledEvent.replaceAll mendedEvent t) = true ↔
      tripledEvent.occursIn t = true := by
  have hne : doubledEvent.NeverEmpty := IsFull.neverEmpty rfl (.inr (.inl (.inl trivial)))
  have hrep := replaced_replaceAll hne mendedEvent t
  rw [occursIn_iff_startsAt, occursIn_iff_startsAt]
  constructor
  · rintro ⟨a, b, he, hb⟩
    exact hrep.exists_of_seams seams_doubledEvent rfl he hb
  · rintro ⟨a, b, he, hb⟩
    exact exists_doubled_of_tripled hrep rfl he hb

example : tripledEvent.occursIn "<b onOnOnClick={f}/>".toList = true := by decide

/-! ### Class lists -/

theorem splits_borderounded : Splits "borderounded".toList "border rounded".toList where
  isBad := ⟨⟨⟨'b', rfl, by decide⟩, by decide⟩, by decide⟩
  longer := by decide
  isGood := ⟨"border".toList, "rounded".toList, rfl,
    ⟨⟨⟨'b', rfl, by decide⟩, by decide⟩, by decide⟩,
    ⟨⟨⟨'r', rfl, by decide⟩, by decide⟩, by decide⟩, by decide, by decide⟩

theorem splits_roundedisabled : Splits "roundedisabled".toList "rounded disabled".toList where
  isBad := ⟨⟨⟨'r', rfl, by decide⟩, by decide⟩, by decide⟩
  longer := by decide
  isGood := ⟨"rounded".toList, "disabled".toList, rfl,
    ⟨⟨⟨'r', rfl, by decide⟩, by decide⟩, by decide⟩,
    ⟨⟨⟨'d', rfl, by decide⟩, by decide⟩, by decide⟩, by decide, by decide⟩

theorem mendClass_eq_self (h : (classWord bad).occursIn t = false) (n : Nat) :
    mendClass bad good n t = t := by
  cases n with
  | zero => rfl
  | succ n => exact if_pos (replaceAll_eq_self h)

/-! ### What the detectors find afterwards -/

/-- The action mends the text so that the signature is not found again and the action changes
nothing any more. -/
def Clears (s : Signature) (t : Text) : Prop :=
  ∃ f, s.action? = some f ∧ s.detect (f t) = none ∧ f (f t) = f t

/-- A signature clears a text if it is not found afterwards and the action leaves what has no
defect. -/
theorem clears_iff {s : Signature} {f : Text → Text} (hs : s.action? = some f)
    (hf : ∀ t, s.detect t = none → f t = t) : s.Clears t ↔ s.detect (f t) = none := by
  constructor
  · rintro ⟨g, hg, hnone, -⟩
    obtain rfl := Option.some.inj (hs.symm.trans hg)
    exact hnone
  · exact fun hnone => ⟨f, hs, hnone, hf _ hnone⟩

theorem detectText_eq_none_iff : detectText w t = none ↔ t.holds w = false := by
  cases h : t.holds w <;> simp [detectText, h]

/-- Typing errors in fixed texts are mended once and for all, those in class lists if no list has
more of the words than there are passes, and those in event attributes if no beginning is written
three times. -/
theorem clears_typos (t : Text) :
    fusedInput.Clears t ∧ fusedButton.Clears t ∧
      (fusedBorderRounded.Clears t ↔ ¬ HasList "borderounded".toList (classRounds + 1) t) ∧
      (fusedRoundedDisabled.Clears t ↔ ¬ HasList "roundedisabled".toList (classRounds + 1) t) ∧
      (doubledEventPrefix.Clears t ↔ tripledEvent.occursIn t = false) := by
  refine ⟨?_, ?_, ?_, ?_, ?_⟩
  · rw [clears_iff rfl fun t h => Text.replace_eq_self (detectText_eq_none_iff.mp h)]
    exact detectText_eq_none_iff.mpr (Text.holds_replace (by decide) (by decide) (by decide) t)
  · rw [clears_iff rfl fun t h => Text.replace_eq_self (detectText_eq_none_iff.mp h)]
    exact detectText_eq_none_iff.mpr (Text.holds_replace (by decide) (by decide) (by decide) t)
  · rw [clears_iff rfl fun t h => mendClass_eq_self (detectPiece_eq_none_iff.mp h) classRounds,
      ← occursIn_mendClass_iff splits_borderounded]
    exact detectPiece_eq_none_iff
  · rw [clears_iff rfl fun t h => mendClass_eq_self (detectPiece_eq_none_iff.mp h) classRounds,
      ← occursIn_mendClass_iff splits_roundedisabled]
    exact detectPiece_eq_none_iff
  · rw [clears_iff rfl fun t h => replaceAll_eq_self (detectPiece_eq_none_iff.mp h)]
    refine detectPiece_eq_none_iff.trans ?_
    rw [← Bool.not_eq_true, ← Bool.not_eq_true]
    exact not_congr (occursIn_doubledEvent_iff t)

end SnippetGate.Signature
