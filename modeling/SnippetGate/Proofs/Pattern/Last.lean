import SnippetGate.Proofs.Pattern.Leads

/-!
# The last piece that is found

A search finds the leftmost piece, and the preferred one there. If no piece begins inside of
another, then none begins behind the last one that is found.
-/

namespace SnippetGate

namespace Cursor

variable {c d e : Cursor} {a b : Text}

theorem Over.eq_mk (h : c.Over a d) : d = ⟨c.pos + a.length, a.reverse ++ c.before, d.after⟩ := by
  obtain ⟨n, b, r⟩ := d
  rw [Cursor.mk.injEq]
  exact ⟨h.pos, h.before, rfl⟩

/-- Of two places on the way, the nearer one comes first. -/
theorem Over.of_le (h : c.Over a d) (h' : c.Over b e) (hle : d.pos ≤ e.pos) :
    ∃ k, b = a ++ k ∧ d.Over k e := by
  have hlen : a.length ≤ b.length := by
    rw [h.pos, h'.pos] at hle
    omega
  have hprefix : a <+: b :=
    List.prefix_of_prefix_length_le ⟨d.after, h.after.symm⟩ ⟨e.after, h'.after.symm⟩ hlen
  obtain ⟨k, rfl⟩ := hprefix
  obtain ⟨d', hd, hk⟩ := h'.split
  obtain rfl : d' = d := hd.skip.symm.trans h.skip
  exact ⟨k, rfl, hk⟩

/-- The first end of a run is the farthest: no character of the class follows. -/
theorem exists_head?_runFrom (q : Char → Bool) (n : Nat) (l t : Text) (acc : List Cursor) :
    ∃ d, (runFrom q n l t acc).head? = some d ∧ ∀ x ∈ d.after.head?, q x = false := by
  induction t generalizing n l acc with
  | nil => exact ⟨_, rfl, nofun⟩
  | cons x t ih =>
    rw [runFrom]
    split
    · exact ih ..
    · next hx =>
      refine ⟨_, rfl, ?_⟩
      rintro _ ⟨⟩
      simpa using hx

end Cursor

namespace Pattern

variable {p : Pattern} {m : Match} {n : Nat} {l t u v : Text}

theorem first_of_matchAt? {c : Cursor} (h : p.matchAt? c = some m) : m.first = c := by
  obtain ⟨s, -, rfl⟩ := Option.map_eq_some_iff.mp h
  rfl

theorem matchAt?_of_searchIn? (h : p.searchIn? n l t = some m) : p.matchAt? m.first = some m := by
  induction t generalizing n l with
  | nil => rwa [first_of_matchAt? h]
  | cons x t ih =>
    rw [searchIn?] at h
    split at h
    · next m' hm =>
      obtain rfl := Option.some.inj h
      rwa [first_of_matchAt? hm]
    · exact ih h

/-- What is found is the preferred piece at its place. -/
theorem matchAt?_of_mem_findUpTo {c : Cursor} (h : m ∈ p.findUpTo n c) :
    p.matchAt? m.first = some m := by
  induction n generalizing c with
  | zero => cases h
  | succ n ih =>
    rw [findUpTo] at h
    split at h
    · cases h
    next m' hm =>
    rcases List.mem_cons.mp h with rfl | h
    · exact matchAt?_of_searchIn? hm
    · split at h
      · exact ih h
      · split at h
        · cases h
        · exact ih h

/-- A preferred piece that can end with characters of a class and one more takes all that there
are. -/
theorem rest_of_matchAt? {a : Pattern} {q : Char → Bool} {y : Char} {c : Cursor}
    (h : (seq a (seq (many q) (opt (char y)))).matchAt? c = some m) :
    m.last.cursor.isAfter (· == y) = true ∨
      ∀ x ∈ m.last.cursor.after.head?, q x = false ∧ x ≠ y := by
  rw [matchAt?_eq_head?, Option.map_eq_some_iff] at h
  obtain ⟨s, hs, rfl⟩ := h
  rw [ends, List.head?_flatMap] at hs
  obtain ⟨u, -, hu⟩ := List.exists_of_findSome?_eq_some hs
  obtain ⟨d, hd, hfar⟩ :=
    Cursor.exists_head?_runFrom q u.cursor.pos u.cursor.before u.cursor.after []
  obtain ⟨ds, hds⟩ := List.head?_eq_some_iff.mp hd
  have hends : (many q).ends u = u.move d :: ds.map u.move := by
    rw [many, ends, if_pos rfl, Cursor.runEnds, hds, List.map_cons]
  rw [ends, List.head?_flatMap, hends, List.findSome?_cons] at hu
  dsimp only
  have hopt : (opt (char y)).ends (u.move d) =
      (if d.isBefore (· == y) then [u.move d.next] else []) ++ [u.move d] := rfl
  rw [hopt] at hu
  cases hy : d.isBefore (· == y) with
  | true =>
    rw [hy] at hu
    obtain rfl : u.move d.next = s := Option.some.inj hu
    obtain ⟨n, b, _ | ⟨x, t⟩⟩ := d
    · cases hy
    · exact .inl hy
  | false =>
    rw [hy] at hu
    obtain rfl : u.move d = s := Option.some.inj hu
    refine .inr fun x hx => ⟨hfar x hx, ?_⟩
    obtain ⟨n, b, _ | ⟨x', t⟩⟩ := d
    · cases hx
    · obtain rfl := Option.some.inj hx
      exact ne_of_beq_false hy

/-- What is found begins no later than at any place where the pattern leads on. -/
theorem start_le_of_searchIn? (h : p.searchIn? n l (u ++ v) = some m)
    (hl : p.Leads ⟨⟨n + u.length, u.reverse ++ l, v⟩, []⟩ fun _ => True) :
    m.start ≤ n + u.length := by
  induction u generalizing n l with
  | nil =>
    have hsome : (p.matchAt? ⟨n, l, v⟩).isSome = true := isSome_matchAt?.mpr hl
    obtain ⟨m', hm'⟩ := Option.isSome_iff_exists.mp hsome
    have hm : m' = m := by
      cases v with
      | nil => exact Option.some.inj (hm'.symm.trans h)
      | cons x r =>
        rw [List.nil_append, searchIn?, hm'] at h
        exact Option.some.inj h
    rw [Match.start, ← hm, first_of_matchAt? hm']
    exact Nat.le_refl _
  | cons x u ih =>
    rw [List.cons_append, searchIn?] at h
    split at h
    · next m' hm =>
      obtain rfl := Option.some.inj h
      rw [Match.start, first_of_matchAt? hm]
      exact Nat.le_add_right ..
    · have := ih h (by simpa [Nat.add_assoc, Nat.add_comm 1] using hl)
      rw [List.length_cons]
      omega

theorem start_le_of_searchFrom? {c d : Cursor} (h : p.searchFrom? c = some m) (ho : c.Over u d)
    (hl : p.Leads ⟨d, []⟩ fun _ => True) : m.start ≤ d.pos := by
  rw [searchFrom?, ho.after] at h
  rw [ho.pos]
  exact start_le_of_searchIn? h (ho.eq_mk ▸ hl)

/-- Every piece of the pattern has a character, and no piece begins inside of another. -/
structure Solid (p : Pattern) : Prop where
  text_ne_nil : ∀ m : Match, m.last ∈ p.ends ⟨m.first, []⟩ → m.text ≠ []
  inside : ∀ (m : Match) (d : Cursor) (a b : Text), m.last ∈ p.ends ⟨m.first, []⟩ →
    m.first.Over a d → d.Over b m.last.cursor → a ≠ [] → b ≠ [] →
    ¬ p.Leads ⟨d, []⟩ fun _ => True

/-- The last of the pieces found from a place on begins no earlier than any place farther on where
the pattern leads on. -/
theorem Solid.exists_getLast?_findUpTo (hp : p.Solid) {c d : Cursor} (hn : c.after.length < n)
    (ho : c.Over u d) (hl : p.Leads ⟨d, []⟩ fun _ => True) :
    ∃ m, (p.findUpTo n c).getLast? = some m ∧ d.pos ≤ m.start := by
  induction n generalizing c u with
  | zero => cases hn
  | succ n ih =>
    rw [findUpTo]
    split
    · next hnone =>
      have hsome : (p.searchFrom? c).isSome = true :=
        isSome_searchIn?.mpr ⟨u, d.after, ho.after, ho.eq_mk ▸ hl⟩
      simp [hnone] at hsome
    · next m hm =>
      have hf := finds_of_searchFrom? hm
      obtain ⟨a, b, ha, hb⟩ := hf.exists_over
      have hne : b ≠ [] := by
        have := hp.text_ne_nil m hf.last
        rwa [Match.text, hb.between] at this
      have hlater : m.first.pos < m.last.cursor.pos := by
        rw [hb.pos]
        exact Nat.lt_add_of_pos_right (List.length_pos_iff.mpr hne)
      have hstart : m.first.pos ≤ d.pos := start_le_of_searchFrom? hm ho hl
      dsimp only
      rw [if_pos hlater]
      -- the place is the beginning of this piece, or stands behind it and the search goes on
      rcases Nat.lt_or_ge d.pos m.last.cursor.pos with hinside | hbehind
      · obtain ⟨k, -, hk⟩ := ha.of_le ho hstart
        obtain ⟨k', rfl, hk'⟩ := hk.of_le hb (Nat.le_of_lt hinside)
        have hne' : k' ≠ [] := by
          rintro rfl
          rw [hk'.pos] at hinside
          exact Nat.lt_irrefl _ hinside
        have hnil : k = [] := by
          by_cases hk₀ : k = []
          · exact hk₀
          · exact absurd hl (hp.inside m d k k' hf.last hk hk' hk₀ hne')
        have hd : d.pos = m.start := by rw [hk.pos, hnil]; rfl
        cases htail : (p.findUpTo n m.last.cursor).getLast? with
        | none => exact ⟨m, by rw [List.getLast?_cons, htail]; rfl, Nat.le_of_eq hd⟩
        | some m' =>
          refine ⟨m', by rw [List.getLast?_cons, htail]; rfl, ?_⟩
          obtain ⟨q, hq⟩ := (finds_of_mem_findUpTo (List.mem_of_getLast? htail)).first
          have : m.last.cursor.pos ≤ m'.start := by
            rw [Match.start, hq.pos]
            exact Nat.le_add_right ..
          rw [hd]
          exact Nat.le_trans (Nat.le_of_lt hlater) this
      · obtain ⟨k, -, hk⟩ := (ha.trans hb).of_le ho hbehind
        have hshort : m.last.cursor.after.length < n := by
          have h₁ := congrArg List.length (ha.trans hb).after
          have h₂ := List.length_pos_iff.mpr hne
          simp only [List.length_append] at h₁
          omega
        obtain ⟨m', hlast, hle⟩ := ih hshort hk
        exact ⟨m', by rw [List.getLast?_cons, hlast]; rfl, hle⟩

/-- No piece begins behind the last one that is found. -/
theorem Solid.exists_findLast? (hp : p.Solid)
    (hl : p.Leads ⟨⟨u.length, u.reverse, v⟩, []⟩ fun _ => True) :
    ∃ m, p.findLast? (u ++ v) = some m ∧ u.length ≤ m.start := by
  have ho : (Cursor.ofText (u ++ v)).Over u ⟨u.length, u.reverse, v⟩ :=
    ⟨rfl, by simp [Cursor.ofText], by simp [Cursor.ofText]⟩
  exact hp.exists_getLast?_findUpTo (Nat.lt_succ_self _) ho hl

end Pattern

end SnippetGate
