import SnippetGate.Proofs.Pattern.Fits
import SnippetGate.Proofs.Pattern.Last
import SnippetGate.Proofs.Text.Replace

/-!
# Texts with replaced pieces

When all pieces of a pattern are replaced, what comes out consists of the gaps between them, in
which no piece begins, and of the new texts. So a place of the new text lies in a gap, in a new text
or behind one. What can be read from there is a question about the seams: whether it goes from a gap
across the beginning of a new text, and whether it begins inside of one.
-/

namespace SnippetGate

/-- The place between `u` and `v`. -/
def Cursor.amid (u v : Text) : Cursor := ⟨u.length, u.reverse, v⟩

/-- A place of a text in three parts lies in the first of them, in the second or behind both. -/
theorem Text.cases_of_append_eq {g x r a b : Text} (h : g ++ (x ++ r) = a ++ b) :
    (∃ k, k ≠ [] ∧ g = a ++ k ∧ b = k ++ (x ++ r)) ∨
      (∃ c d, d ≠ [] ∧ a = g ++ c ∧ x = c ++ d ∧ b = d ++ r) ∨
        ∃ c, a = g ++ (x ++ c) ∧ r = c ++ b := by
  rcases List.append_eq_append_iff.mp h with ⟨c, rfl, hc⟩ | ⟨k, rfl, rfl⟩
  · rcases List.append_eq_append_iff.mp hc with ⟨c', rfl, rfl⟩ | ⟨d, rfl, rfl⟩
    · exact .inr (.inr ⟨c', rfl, rfl⟩)
    · by_cases hd : d = []
      · exact .inr (.inr ⟨[], by simp [hd], by simp [hd]⟩)
      · exact .inr (.inl ⟨c, d, hd, rfl, rfl, rfl⟩)
  · by_cases hk : k = []
    · by_cases hx : x = []
      · exact .inr (.inr ⟨[], by simp [hk, hx], by simp [hk, hx]⟩)
      · exact .inr (.inl ⟨[], x, hx, by simp [hk], rfl, by simp [hk]⟩)
    · exact .inl ⟨k, hk, rfl, rfl⟩

namespace Pattern

variable {p : Pattern} {f : Match → Text} {m : Match} {l t u v v' w a b : Text}

/-- A piece of the pattern begins between `u` and `v`. -/
def StartsAt (p : Pattern) (u v : Text) : Prop := p.Leads ⟨.amid u v, []⟩ fun _ => True

/-- The piece that the pattern prefers behind `u` is `m`, and `v` follows it. -/
def Takes (p : Pattern) (u : Text) (m : Match) (v : Text) : Prop :=
  p.matchAt? (.amid u (m.text ++ v)) = some m

theorem occursIn_iff_startsAt :
    p.occursIn t = true ↔ ∃ u v, t = u ++ v ∧ p.StartsAt u v := isSome_search?

theorem startsAt_iff (hp : p.isExplicit = true) :
    p.StartsAt u v ↔ ∃ w r, v = w ++ r ∧ p.Fits u w r := by
  constructor
  · rintro ⟨m, hm, -⟩
    obtain ⟨w, ho, hf⟩ := exists_fits_of_mem_ends hp hm
    exact ⟨w, m.cursor.after, ho.after, by simpa [Cursor.amid] using hf⟩
  · rintro ⟨w, r, rfl, hf⟩
    exact (leads_of_fits hf u.length []).imp fun _ h => ⟨h.1, trivial⟩

theorem Fits.startsAt (hp : p.isExplicit = true) (h : p.Fits u w v) : p.StartsAt u (w ++ v) :=
  (startsAt_iff hp).mpr ⟨w, v, rfl, h⟩

/-- What is found first begins where a piece begins. -/
theorem startsAt_of_search? (h : p.search? t = some m) :
    ∃ u v, t = u ++ v ∧ m.start = u.length ∧ p.StartsAt u v := by
  have hf := finds_of_searchFrom? h
  obtain ⟨u, hu⟩ := hf.first
  refine ⟨u, m.first.after, hu.after, ?_, m.last, ?_, trivial⟩
  · rw [Match.start, hu.pos]
    simp [Cursor.ofText]
  · have hfirst : m.first = .amid u m.first.after := by
      rw [hu.eq_mk]
      simp [Cursor.ofText, Cursor.amid]
    rw [← hfirst]
    exact hf.last

/-- Where a piece begins something is found, there or before. -/
theorem StartsAt.exists_search? (h : p.StartsAt u v) :
    ∃ m, p.search? (u ++ v) = some m ∧ m.start ≤ u.length := by
  obtain ⟨m, hm⟩ := Option.isSome_iff_exists.mp (isSome_search?.mpr ⟨u, v, rfl, h⟩)
  have hle := start_le_of_searchIn? (n := 0) (l := []) hm (by simpa [StartsAt, Cursor.amid] using h)
  exact ⟨m, hm, by simpa using hle⟩

theorem StartsAt.start_le (h : p.StartsAt u v) (hm : p.search? (u ++ v) = some m) :
    m.start ≤ u.length := by
  obtain ⟨m', hm', hle⟩ := h.exists_search?
  rwa [Option.some.inj (hm.symm.trans hm')]

namespace Takes

theorem first (h : p.Takes u m v) : m.first = .amid u (m.text ++ v) := first_of_matchAt? h

theorem mem_ends (h : p.Takes u m v) : m.last ∈ p.ends ⟨m.first, []⟩ :=
  (finds_of_matchAt? h).last

theorem goesOver (h : p.Takes u m v) : m.first.Over m.text m.last.cursor := by
  obtain ⟨w, hw⟩ := exists_over_of_mem_ends h.mem_ends
  have htext : m.text = w := hw.between
  rwa [htext]

theorem start (h : p.Takes u m v) : m.start = u.length := by
  rw [Match.start, h.first]
  rfl

theorem after (h : p.Takes u m v) : m.last.cursor.after = v := by
  have := h.goesOver.after
  rw [h.first] at this
  exact (List.append_cancel_left this).symm

theorem last (h : p.Takes u m v) : m.last.cursor = .amid (u ++ m.text) v := by
  rw [h.goesOver.eq_mk, h.after, h.first]
  simp [Cursor.amid]

theorem fits (hp : p.isExplicit = true) (h : p.Takes u m v) : p.Fits u m.text v := by
  obtain ⟨w, ho, hf⟩ := exists_fits_of_mem_ends hp h.mem_ends
  have htext : m.text = w := ho.between
  rw [h.after, h.first] at hf
  rw [htext]
  simpa [Cursor.amid] using hf

theorem startsAt (h : p.Takes u m v) : p.StartsAt u (m.text ++ v) :=
  isSome_matchAt?.mp (by rw [h]; rfl)

end Takes

/-- A piece that is found, if it is the preferred one at its place, divides the text. -/
theorem Finds.exists_takes (h : p.Finds (.amid u t) m) (hm : p.matchAt? m.first = some m) :
    ∃ a v, t = a ++ (m.text ++ v) ∧ p.Takes (u ++ a) m v := by
  obtain ⟨a, w, ha, hw⟩ := h.exists_over
  have htext : m.text = w := hw.between
  have hplace : m.first = .amid (u ++ a) (m.text ++ m.last.cursor.after) := by
    rw [ha.eq_mk, hw.after, htext]
    simp [Cursor.amid]
  refine ⟨a, m.last.cursor.after, ?_, by rwa [Takes, ← hplace]⟩
  rw [htext, ← hw.after]
  exact ha.after

theorem StartsAt.exists_takes (h : p.StartsAt u v) : ∃ m r, v = m.text ++ r ∧ p.Takes u m r := by
  obtain ⟨m, hm⟩ := Option.isSome_iff_exists.mp (isSome_matchAt?.mpr h)
  obtain ⟨w, hw⟩ := exists_over_of_mem_ends (finds_of_matchAt? hm).last
  have htext : m.text = w := hw.between
  have hv : v = m.text ++ m.last.cursor.after := by
    have hafter : m.first.after = w ++ m.last.cursor.after := hw.after
    rwa [first_of_matchAt? hm, ← htext] at hafter
  exact ⟨m, m.last.cursor.after, hv, by rwa [Takes, ← hv]⟩

/-- The text `v`, which stands behind `u`, and the same text with all pieces replaced. -/
inductive Replaced (p : Pattern) (f : Match → Text) : Text → Text → Text → Prop where
  /-- No piece begins any more. -/
  | rest {u v : Text} (hrest : ∀ a b, v = a ++ b → ¬ p.StartsAt (u ++ a) b) : Replaced p f u v v
  /-- The first piece is `m`. -/
  | piece {u a v v' : Text} {m : Match}
    (hgap : ∀ k b, a = k ++ b → b ≠ [] → ¬ p.StartsAt (u ++ k) (b ++ (m.text ++ v)))
    (htakes : p.Takes (u ++ a) m v) (hrest : Replaced p f (u ++ (a ++ m.text)) v v') :
    Replaced p f u (a ++ (m.text ++ v)) (a ++ (f m ++ v'))

/-- Every piece of the pattern has a character. -/
def NeverEmpty (p : Pattern) : Prop := ∀ m : Match, m.last ∈ p.ends ⟨m.first, []⟩ → m.text ≠ []

theorem IsFull.neverEmpty (hp : p.isExplicit = true) (h : p.IsFull) : p.NeverEmpty := by
  intro m hm
  obtain ⟨w, ho, hf⟩ := exists_fits_of_mem_ends hp hm
  have htext : m.text = w := ho.between
  exact htext ▸ h.ne_nil hf

/-- The first piece of a text, and no piece before it. -/
theorem exists_takes_of_searchFrom? (h : p.searchFrom? (.amid u t) = some m) :
    ∃ a v, t = a ++ (m.text ++ v) ∧ p.Takes (u ++ a) m v ∧
      ∀ k b, a = k ++ b → b ≠ [] → ¬ p.StartsAt (u ++ k) (b ++ (m.text ++ v)) := by
  obtain ⟨a, v, rfl, htakes⟩ := (finds_of_searchFrom? h).exists_takes (matchAt?_of_searchIn? h)
  refine ⟨a, v, rfl, htakes, fun k b he hne hs => ?_⟩
  -- a piece that begins before would have been found
  subst he
  have hle : m.start ≤ u.length + k.length := by
    have hm : p.searchIn? u.length u.reverse (k ++ (b ++ (m.text ++ v))) = some m := by
      rw [← List.append_assoc k]
      exact h
    exact start_le_of_searchIn? hm (by simpa [StartsAt, Cursor.amid] using hs)
  have hstart := htakes.start
  have hpos := List.length_pos_of_ne_nil hne
  simp only [List.length_append] at hstart
  omega

theorem replaced_fillIn (hp : p.NeverEmpty) (f : Match → Text) (n : Nat) (u v : Text)
    (hn : v.length < n) :
    Replaced p f u v (fillIn f (p.findUpTo n (.amid u v)) u.length v) := by
  induction n generalizing u v with
  | zero => cases hn
  | succ n ih =>
    rw [findUpTo]
    split
    · next hnone =>
      refine .rest fun a b he hs => ?_
      have hsome : (p.searchFrom? (.amid u v)).isSome = true :=
        isSome_searchIn?.mpr ⟨a, b, he, by simpa [StartsAt, Cursor.amid] using hs⟩
      rw [hnone] at hsome
      cases hsome
    · next m hm =>
      obtain ⟨a, r, rfl, htakes, hgap⟩ := exists_takes_of_searchFrom? hm
      have hlong := List.length_pos_of_ne_nil (hp m htakes.mem_ends)
      have hlast : m.last.cursor = .amid (u ++ (a ++ m.text)) r := by
        rw [htakes.last, List.append_assoc]
      have hlater : m.first.pos < m.last.cursor.pos := by
        rw [htakes.first, htakes.last]
        simpa [Cursor.amid] using hlong
      have hstart : m.start - u.length = a.length := by
        rw [htakes.start, List.length_append, Nat.add_sub_cancel_left]
      have hstop : m.stop = (u ++ (a ++ m.text)).length := by
        rw [Match.stop, hlast]
        rfl
      have hstop' : m.stop - u.length = (a ++ m.text).length := by
        rw [hstop, List.length_append, Nat.add_sub_cancel_left]
      dsimp only
      rw [if_pos hlater, fillIn, hstart, hstop', List.take_left, ← List.append_assoc a m.text,
        List.drop_left, hstop, hlast, List.append_assoc, List.append_assoc]
      refine .piece hgap htakes (ih _ _ ?_)
      simp only [List.length_append] at hn
      omega

/-- A text and the same text with all pieces replaced. -/
theorem replaced_replaceAll (hp : p.NeverEmpty) (f : Match → Text) (t : Text) :
    Replaced p f [] t (p.replaceAll f t) :=
  replaced_fillIn hp f (t.length + 1) [] t (Nat.lt_succ_self _)

/-- A text without pieces stays as it is. -/
theorem replaceAll_eq_self (h : p.occursIn t = false) : p.replaceAll f t = t := by
  have hnone : p.searchFrom? (.ofText t) = none := search?_eq_none_iff.mpr h
  rw [replaceAll, findAll, findUpTo, hnone]
  rfl

theorem fillIn_congr {g : Match → Text} {ms : List Match} (h : ∀ m ∈ ms, f m = g m) (n : Nat)
    (t : Text) : fillIn f ms n t = fillIn g ms n t := by
  induction ms generalizing n t with
  | nil => rfl
  | cons m ms ih =>
    obtain ⟨hm, hms⟩ := List.forall_mem_cons.mp h
    rw [fillIn, fillIn, hm, ih hms]

/-- A text whose pieces are replaced by themselves stays as it is. -/
theorem Replaced.eq_of_text (h : Replaced p Match.text u v v') : v' = v := by
  induction h with
  | rest => rfl
  | piece hgap htakes hrest ih => rw [ih]

theorem replaceAll_eq_self_of_text (hp : p.NeverEmpty) (h : ∀ m ∈ p.findAll t, f m = m.text) :
    p.replaceAll f t = t := by
  have htext : p.replaceAll f t = p.replaceAll Match.text t := fillIn_congr h 0 t
  rw [htext, (replaced_replaceAll hp Match.text t).eq_of_text]

/-- What grows with each piece stays the same only without pieces. -/
theorem Replaced.length_le (h : Replaced p f u v v')
    (hf : ∀ {u m v}, p.Takes u m v → m.text.length < (f m).length) :
    v.length ≤ v'.length ∧ (v' = v → ∀ a b, v = a ++ b → ¬ p.StartsAt (u ++ a) b) := by
  induction h with
  | rest hrest => exact ⟨le_rfl, fun _ => hrest⟩
  | piece hgap htakes hrest ih =>
    have hlonger := hf htakes
    have hle := ih.1
    refine ⟨by simp only [List.length_append]; omega, fun he => ?_⟩
    have := congrArg List.length he
    simp only [List.length_append] at this
    omega

/-- A text that does not grow has no pieces. -/
theorem occursIn_of_replaceAll_eq_self (hp : p.NeverEmpty)
    (hf : ∀ {u m v}, p.Takes u m v → m.text.length < (f m).length) (h : p.replaceAll f t = t) :
    p.occursIn t = false := by
  rw [← Bool.not_eq_true, occursIn_iff_startsAt]
  rintro ⟨u, v, he, hs⟩
  exact ((replaced_replaceAll hp f t).length_le hf).2 h u v he hs

/-! ### Seams -/

/-- What has to be known of the seams, where `l` stands for the text before in the new text and `u`
for that in the old one, so that wherever `B` holds of a place of the new text `Q` holds of one of
the old. -/
structure Seams (p : Pattern) (f : Match → Text) (E B Q : Text → Text → Prop) : Prop where
  append : ∀ {l u : Text} (s : Text), E l u → E (l ++ s) (u ++ s)
  swap : ∀ {l u v : Text} {m : Match}, E l u → p.Takes u m v → E (l ++ f m) (u ++ m.text)
  gap : ∀ {l u v : Text}, E l u → ¬ p.StartsAt u v → B l v → Q u v
  across : ∀ {l u k v v' : Text} {m : Match}, E l u → k ≠ [] →
    ¬ p.StartsAt u (k ++ (m.text ++ v)) → p.Takes (u ++ k) m v →
    Replaced p f (u ++ (k ++ m.text)) v v' → B l (k ++ (f m ++ v')) → Q u (k ++ (m.text ++ v))
  inside : ∀ {l u v v' a b : Text} {m : Match}, E l u → p.Takes u m v →
    Replaced p f (u ++ m.text) v v' → f m = a ++ b → b ≠ [] → B (l ++ a) (b ++ v') →
    Q u (m.text ++ v)

variable {E B Q : Text → Text → Prop}

theorem Replaced.exists_of_seams (h : Replaced p f u v v') (hs : Seams p f E B Q) (he : E l u)
    (hv : v' = a ++ b) (hb : B (l ++ a) b) : ∃ c d, v = c ++ d ∧ Q (u ++ c) d := by
  induction h generalizing l a b with
  | rest hrest => exact ⟨a, b, hv, hs.gap (hs.append a he) (hrest a b hv) hb⟩
  | @piece u g v v' m hgap htakes hrest ih =>
    have htext : Replaced p f (u ++ g ++ m.text) v v' := by rwa [List.append_assoc]
    rcases Text.cases_of_append_eq hv with ⟨k, hk, rfl, rfl⟩ | ⟨c, d, hd, rfl, hf, rfl⟩ |
      ⟨c, rfl, rfl⟩
    · -- in the gap
      refine ⟨a, k ++ (m.text ++ v), by simp, ?_⟩
      refine hs.across (hs.append a he) hk (hgap a k rfl hk) ?_ ?_ hb
      · rwa [List.append_assoc]
      · rwa [List.append_assoc, ← List.append_assoc a]
    · -- in the new text
      rw [← List.append_assoc] at hb
      exact ⟨g, m.text ++ v, rfl, hs.inside (hs.append g he) htakes htext hf hd hb⟩
    · -- behind it
      have he' := hs.swap (hs.append g he) htakes
      rw [List.append_assoc u] at he'
      obtain ⟨c, d, rfl, hq⟩ := ih he' rfl (by simpa using hb)
      exact ⟨g ++ (m.text ++ c), d, by simp, by simpa using hq⟩

/-- No piece begins in the new text if none begins inside of what is new or goes across its
beginning. -/
theorem occursIn_replaceAll (hp : p.NeverEmpty) (hnil : E [] [])
    (hs : Seams p f E p.StartsAt fun _ _ => False) : p.occursIn (p.replaceAll f t) = false := by
  rw [← Bool.not_eq_true, occursIn_iff_startsAt]
  rintro ⟨a, b, he, hb⟩
  obtain ⟨_, _, -, hfalse⟩ := (replaced_replaceAll hp f t).exists_of_seams hs hnil he hb
  exact hfalse

end Pattern

end SnippetGate
