import SnippetGate.Proofs.Pattern.Ends

/-!
# Where a pattern leads

A pattern leads to a property if some piece ends where the property holds. Every pattern has an
equation that says what it asks of the text around it, and a text has a piece of a pattern if the
pattern leads somewhere from one of its places.
-/

namespace SnippetGate

namespace Cursor

variable {p : Char → Bool} {c : Cursor}

theorem mem_runFrom_of_mem_acc {d : Cursor} {pos : Nat} {before t : Text} {acc : List Cursor}
    (h : d ∈ acc) : d ∈ runFrom p pos before t acc := by
  rw [runFrom_eq]
  exact List.mem_append_right _ h

/-- Every place that characters of the class lead to is reached. -/
theorem mem_runFrom_of_over {d : Cursor} {pos : Nat} {before t a : Text} {acc : List Cursor}
    (ha : ∀ x ∈ a, p x = true) (h : (⟨pos, before, t⟩ : Cursor).Over a d) :
    d ∈ runFrom p pos before t acc := by
  induction a generalizing pos before t acc with
  | nil =>
    obtain rfl := h.skip
    rw [List.length_nil, skip_zero]
    cases t with
    | nil => exact List.mem_cons_self
    | cons x r =>
      rw [runFrom]
      split
      · exact mem_runFrom_of_mem_acc List.mem_cons_self
      · exact List.mem_cons_self
  | cons x a ih =>
    obtain rfl : t = x :: (a ++ d.after) := h.after
    rw [runFrom, if_pos (ha x List.mem_cons_self)]
    refine ih (fun y hy => ha y (List.mem_cons_of_mem x hy)) ⟨rfl, ?_, ?_⟩
    · rw [h.before, List.reverse_cons, List.append_assoc, List.singleton_append]
    · rw [h.pos, List.length_cons, Nat.add_right_comm, Nat.add_assoc]

theorem mem_runEnds_iff {d : Cursor} :
    d ∈ c.runEnds p ↔ ∃ a, (∀ x ∈ a, p x = true) ∧ c.Over a d :=
  ⟨mem_runEnds, fun ⟨_, ha, h⟩ => mem_runFrom_of_over ha h⟩

end Cursor

namespace Pattern

/-- Some piece that begins at `s` ends where `K` holds. -/
def Leads (p : Pattern) (s : Progress) (K : Progress → Prop) : Prop := ∃ t ∈ p.ends s, K t

variable {a b : Pattern} {s : Progress} {K : Progress → Prop} {p : Char → Bool} {n : Nat}
  {l t : Text} {κ : List (Nat × Capture)}

theorem leads_seq : (seq a b).Leads s K ↔ a.Leads s fun u => b.Leads u K := by
  simp only [Leads, mem_ends_seq]
  constructor
  · rintro ⟨t, ⟨u, hu, ht⟩, hk⟩
    exact ⟨u, hu, t, ht, hk⟩
  · rintro ⟨u, hu, t, ht, hk⟩
    exact ⟨t, ⟨u, hu, ht⟩, hk⟩

theorem leads_alt : (alt a b).Leads s K ↔ a.Leads s K ∨ b.Leads s K := by
  simp only [Leads, mem_ends_alt, or_and_right, exists_or]

theorem leads_empty : empty.Leads s K ↔ K s := by simp [Leads, ends]

theorem leads_one : (one p).Leads ⟨⟨n, l, t⟩, κ⟩ K ↔
    ∃ x r, t = x :: r ∧ p x = true ∧ K ⟨⟨n + 1, x :: l, r⟩, κ⟩ := by
  cases t with
  | nil => simp [Leads, ends, Cursor.isBefore]
  | cons x r =>
    have h : (⟨n, l, x :: r⟩ : Cursor).isBefore p = p x := rfl
    constructor
    · rintro ⟨u, hu, hk⟩
      rw [ends, h] at hu
      split at hu
      · next hx =>
        obtain rfl := List.mem_singleton.mp hu
        exact ⟨x, r, rfl, hx, hk⟩
      · cases hu
    · rintro ⟨y, q, hy, hx, hk⟩
      obtain ⟨rfl, rfl⟩ := List.cons.inj hy
      refine ⟨_, ?_, hk⟩
      rw [ends, h, if_pos hx]
      exact List.mem_singleton.mpr rfl

theorem leads_run {greedy : Bool} : (run p greedy).Leads ⟨⟨n, l, t⟩, κ⟩ K ↔
    ∃ q r, t = q ++ r ∧ (∀ x ∈ q, p x = true) ∧ K ⟨⟨n + q.length, q.reverse ++ l, r⟩, κ⟩ := by
  have hmem (u : Progress) : u ∈ (run p greedy).ends ⟨⟨n, l, t⟩, κ⟩ ↔
      ∃ c ∈ (⟨n, l, t⟩ : Cursor).runEnds p, ⟨c, κ⟩ = u := by
    cases greedy <;> simp [ends, Progress.move]
  constructor
  · rintro ⟨u, hu, hk⟩
    obtain ⟨c, hc, rfl⟩ := (hmem u).mp hu
    obtain ⟨q, hq, ho⟩ := Cursor.mem_runEnds hc
    refine ⟨q, c.after, ho.after, hq, ?_⟩
    have : c = ⟨n + q.length, q.reverse ++ l, c.after⟩ := by
      obtain ⟨m, b, r⟩ := c
      rw [Cursor.mk.injEq]
      exact ⟨ho.pos, ho.before, rfl⟩
    rwa [← this]
  · rintro ⟨q, r, rfl, hq, hk⟩
    refine ⟨_, (hmem _).mpr ⟨⟨n + q.length, q.reverse ++ l, r⟩, ?_, rfl⟩, hk⟩
    exact Cursor.mem_runEnds_iff.mpr ⟨q, hq, ⟨rfl, rfl, rfl⟩⟩

theorem leads_text {w : Text} : (text w).Leads ⟨⟨n, l, t⟩, κ⟩ K ↔
    ∃ r, t = w ++ r ∧ K ⟨⟨n + w.length, w.reverse ++ l, r⟩, κ⟩ := by
  have hcons (x : Char) (w : Text) (s : Progress) (K : Progress → Prop) :
      (text (x :: w)).Leads s K ↔ (char x).Leads s fun u => (text w).Leads u K := by
    cases w with
    | nil => simp [text, all, leads_empty]
    | cons y w => exact leads_seq
  induction w generalizing n l t with
  | nil => simp [text, all, leads_empty]
  | cons x w ih =>
    rw [hcons, char, leads_one]
    simp only [ih, beq_iff_eq]
    constructor
    · rintro ⟨_, _, rfl, rfl, r, rfl, hk⟩
      exact ⟨r, rfl, by simpa [Nat.add_assoc, Nat.add_comm 1] using hk⟩
    · rintro ⟨r, rfl, hk⟩
      exact ⟨x, w ++ r, rfl, rfl, r, rfl, by simpa [Nat.add_assoc, Nat.add_comm 1] using hk⟩

theorem leads_notAfter : (notAfter p).Leads ⟨⟨n, l, t⟩, κ⟩ K ↔
    (∀ x ∈ l.head?, p x = false) ∧ K ⟨⟨n, l, t⟩, κ⟩ := by
  cases l with
  | nil => simp [Leads, ends, Cursor.isAfter]
  | cons x l =>
    have h : (⟨n, x :: l, t⟩ : Cursor).isAfter p = p x := rfl
    cases hx : p x <;> simp [Leads, ends, h, hx]

theorem leads_notAhead : (notAhead a).Leads s K ↔ (¬ a.Leads s fun _ => True) ∧ K s := by
  unfold Leads
  rw [ends]
  cases a.ends s <;> simp

theorem leads_wordEdge : wordEdge.Leads s K ↔ s.cursor.atWordEdge = true ∧ K s := by
  unfold Leads
  rw [ends]
  split <;> simp_all

/-! ### Searching -/

theorem isSome_matchAt? {c : Cursor} :
    (a.matchAt? c).isSome = true ↔ a.Leads ⟨c, []⟩ fun _ => True := by
  rw [matchAt?_eq_head?]
  unfold Leads
  cases a.ends ⟨c, []⟩ <;> simp

theorem isSome_searchIn? :
    (a.searchIn? n l t).isSome = true ↔ ∃ u v, t = u ++ v ∧
      a.Leads ⟨⟨n + u.length, u.reverse ++ l, v⟩, []⟩ fun _ => True := by
  induction t generalizing n l with
  | nil =>
    rw [searchIn?, isSome_matchAt?]
    constructor
    · exact fun h => ⟨[], [], rfl, h⟩
    · rintro ⟨u, v, he, hl⟩
      obtain ⟨rfl, rfl⟩ := List.append_eq_nil_iff.mp he.symm
      exact hl
  | cons x r ih =>
    rw [searchIn?]
    cases hm : a.matchAt? ⟨n, l, x :: r⟩ with
    | some m =>
      have h : a.Leads ⟨⟨n, l, x :: r⟩, []⟩ fun _ => True := isSome_matchAt?.mp (by rw [hm]; rfl)
      exact iff_of_true rfl ⟨[], x :: r, rfl, h⟩
    | none =>
      have h : ¬ a.Leads ⟨⟨n, l, x :: r⟩, []⟩ fun _ => True := by
        rw [← isSome_matchAt?, hm]
        exact Bool.false_ne_true
      dsimp only
      rw [ih]
      constructor
      · rintro ⟨u, v, rfl, hl⟩
        exact ⟨x :: u, v, rfl, by simpa [Nat.add_assoc, Nat.add_comm 1] using hl⟩
      · rintro ⟨u, v, he, hl⟩
        cases u with
        | nil =>
          obtain rfl : x :: r = v := he
          exact absurd hl h
        | cons y u =>
          obtain ⟨rfl, rfl⟩ := List.cons.inj he
          exact ⟨u, v, rfl, by simpa [Nat.add_assoc, Nat.add_comm 1] using hl⟩

/-- A text has a piece of a pattern that leads somewhere from one of its places, and of no
other. -/
theorem isSome_search? : (a.search? t).isSome = true ↔ ∃ u v, t = u ++ v ∧
    a.Leads ⟨⟨u.length, u.reverse, v⟩, []⟩ fun _ => True := by
  rw [search?, searchFrom?, isSome_searchIn?]
  simp [Cursor.ofText]

theorem search?_eq_none_iff : a.search? t = none ↔ a.occursIn t = false := by
  rw [occursIn, Option.isSome_eq_false_iff, Option.isNone_iff_eq_none]

end Pattern

end SnippetGate
