import SnippetGate.Proofs.Pattern.Last
import SnippetGate.Proofs.Pattern.LineEnds

/-!
# Patterns with one place

The pieces that are found in a text begin farther and farther on. So just one is found if the pieces
of the pattern begin at one place only; and whether they do does not depend on the spelling of line
ends, as long as none begins within a line end.
-/

namespace SnippetGate

open Text

namespace Pattern

variable {p : Pattern} {K : Condition} {c : Cursor} {m : Match} {t u v : Text} {n : Nat}

theorem Finds.le_start (h : p.Finds c m) : c.pos ≤ m.start := by
  obtain ⟨a, ha⟩ := h.first
  rw [Match.start, ha.pos]
  exact Nat.le_add_right ..

theorem Finds.start_le_stop (h : p.Finds c m) : m.start ≤ m.last.cursor.pos := by
  obtain ⟨-, b, -, hb⟩ := h.exists_over
  rw [Match.start, hb.pos]
  exact Nat.le_add_right ..

/-- The pieces that are found begin one after the other. -/
theorem pairwise_findUpTo (p : Pattern) (n : Nat) (c : Cursor) :
    (p.findUpTo n c).Pairwise fun m m' => m.start < m'.start := by
  induction n generalizing c with
  | zero => exact .nil
  | succ n ih =>
    rw [findUpTo]
    split
    · exact .nil
    next m hm =>
    have hle := (finds_of_searchFrom? hm).start_le_stop
    dsimp only
    split
    · next hlt =>
      exact .cons (fun m' hm' => Nat.lt_of_lt_of_le hlt (finds_of_mem_findUpTo hm').le_start) (ih _)
    split
    · exact List.pairwise_singleton _ _
    · next hafter =>
      obtain ⟨x, r, hr⟩ := List.exists_cons_of_ne_nil (mt List.isEmpty_iff.mpr hafter)
      have hnext : m.last.cursor.next.pos = m.last.cursor.pos + 1 := by
        rw [Cursor.next_of_after hr]
      refine .cons (fun m' hm' => ?_) (ih _)
      have := (finds_of_mem_findUpTo hm').le_start
      omega

/-- A piece of the pattern begins where something is found. -/
theorem exists_begins_of_finds (hp : p.isDirect = true) (h : p.Finds (.ofText t) m) :
    ∃ u v, t = u ++ v ∧ u.length = m.start ∧ p.Begins u v := by
  obtain ⟨a, ha⟩ := h.first
  have hfirst : m.first = ⟨a.length, a.reverse, m.first.after⟩ := by
    have := ha.eq_mk
    simpa [Cursor.ofText] using this
  refine ⟨a, m.first.after, ha.after, ?_, ?_⟩
  · rw [Match.start, hfirst]
  · rw [← leads_iff_begins hp (n := a.length) (κ := []), ← hfirst]
    exact ⟨m.last, h.last, trivial⟩

/-- If the pieces of the pattern begin at one place only, one is found. -/
theorem exists_findAll_of_begins (hp : p.isDirect = true) (h : p.Begins u v)
    (honly : ∀ u' v', u ++ v = u' ++ v' → p.Begins u' v' → u' = u) :
    ∃ m, p.findAll (u ++ v) = [m] ∧ m.start = u.length := by
  have hstart : ∀ m ∈ p.findAll (u ++ v), m.start = u.length := by
    intro m hm
    obtain ⟨u', v', he, hlen, hb⟩ := exists_begins_of_finds hp (finds_of_mem_findAll hm)
    rw [← hlen, honly u' v' he hb]
  have hsome : (p.search? (u ++ v)).isSome = true :=
    (occursIn_iff_begins hp).mpr ⟨u, v, rfl, h⟩
  obtain ⟨m, hm⟩ := Option.isSome_iff_exists.mp hsome
  have hpair := pairwise_findUpTo p ((u ++ v).length + 1) (.ofText (u ++ v))
  have hmem : ∃ ms, p.findAll (u ++ v) = m :: ms := by
    rw [findAll, findUpTo, show p.searchFrom? (.ofText (u ++ v)) = some m from hm]
    exact ⟨_, rfl⟩
  obtain ⟨ms, hms⟩ := hmem
  rw [hms] at hstart
  rw [← findAll, hms, List.pairwise_cons] at hpair
  refine ⟨m, ?_, hstart m List.mem_cons_self⟩
  cases ms with
  | nil => exact hms
  | cons m' ms =>
    have := hpair.1 m' List.mem_cons_self
    rw [hstart m List.mem_cons_self, hstart m' (by simp)] at this
    exact absurd this (Nat.lt_irrefl _)

/-- If one piece is found, no piece begins before it or behind it. -/
theorem le_length_of_findAll (hp : p.isDirect = true) (h : p.findAll (u ++ v) = [m])
    (hne : m.text ≠ []) (hb : p.Begins u v) : m.start ≤ u.length ∧ u.length < m.stop := by
  have hl : p.Leads ⟨⟨u.length, u.reverse, v⟩, []⟩ fun _ => True := (leads_iff_begins hp).mpr hb
  have ho : (Cursor.ofText (u ++ v)).Over u ⟨u.length, u.reverse, v⟩ :=
    ⟨rfl, by simp [Cursor.ofText], by simp [Cursor.ofText]⟩
  rw [findAll, findUpTo] at h
  split at h
  · cases h
  next m' hm =>
  obtain ⟨rfl, hrest⟩ := List.cons.inj h
  refine ⟨start_le_of_searchFrom? hm ho hl, ?_⟩
  have hf := finds_of_searchFrom? hm
  obtain ⟨a, b, ha, hb'⟩ := hf.exists_over
  have htext : m'.text = b := hb'.between
  have hlater : m'.first.pos < m'.last.cursor.pos := by
    rw [hb'.pos, ← htext]
    exact Nat.lt_add_of_pos_right (List.length_pos_iff.mpr hne)
  rw [if_pos hlater] at hrest
  -- behind it the search would find one more
  by_contra hbehind
  obtain ⟨k, -, hk⟩ := (ha.trans hb').of_le ho (Nat.not_lt.mp hbehind)
  have hlen : (u ++ v).length ≠ 0 := by
    have := congrArg List.length ha.after
    have := congrArg List.length hb'.after
    have := List.length_pos_iff.mpr hne
    simp only [List.length_append, Cursor.ofText, htext] at *
    omega
  obtain ⟨n, hn⟩ := Nat.exists_eq_succ_of_ne_zero hlen
  rw [hn, findUpTo] at hrest
  split at hrest
  · next hnone =>
    have hsome : (p.searchFrom? m'.last.cursor).isSome = true :=
      isSome_searchIn?.mpr ⟨k, _, hk.after, hk.eq_mk ▸ hl⟩
    rw [hnone] at hsome
    cases hsome
  · cases hrest

/-! ### Line ends -/

/-- The condition holds at a place of the text, and the pieces of the pattern begin at no other. -/
def IsLone (p : Pattern) (K : Condition) (t : Text) : Prop :=
  ∃ u v, t = u ++ v ∧ K u v ∧ ∀ u' v', t = u' ++ v' → p.Begins u' v' → u' = u

/-- Whether no piece of the pattern begins within a line end. -/
def isApart (p : Pattern) : Bool := p.isEvenAnywhere && (p.within .free).never

theorem Condition.Even.exists_of_crlf {k : Within} (hK : K.Even) (hk : k.Holds K)
    (hn : k.never = true) (he : crlf t = u ++ v) (h : K u v) :
    ∃ a b, t = a ++ b ∧ u = crlf a ∧ v = crlf b ∧ K a b := by
  rcases exists_of_crlf_eq he with ⟨a, b, rfl, rfl, rfl⟩ | ⟨a, b, rfl, rfl, rfl⟩
  · exact ⟨a, b, rfl, rfl, rfl, (hK a b).mp h⟩
  · exact absurd h (hk.never hn _ _)

/-- Whether a pattern has one place does not depend on the spelling of line ends. -/
theorem isLone_crlf {k : Within} (hp : p.isApart = true) (hK : K.Even) (hk : k.Holds K)
    (hn : k.never = true) : p.IsLone K (crlf t) ↔ p.IsLone K t := by
  rw [isApart, Bool.and_eq_true] at hp
  have heven := Begins.even hp.1
  constructor
  · rintro ⟨_, _, he, h, honly⟩
    obtain ⟨u, v, rfl, rfl, rfl, hplace⟩ := hK.exists_of_crlf hk hn he h
    refine ⟨u, v, rfl, hplace, fun u' v' he' hb => crlf_injective ?_⟩
    exact honly _ _ (by rw [he', crlf_append]) ((heven u' v').mpr hb)
  · rintro ⟨u, v, rfl, h, honly⟩
    refine ⟨crlf u, crlf v, crlf_append u v, (hK u v).mpr h, fun u₁ v₁ he' hb => ?_⟩
    obtain ⟨u', v', ht, rfl, -, hbegins⟩ :=
      heven.exists_of_crlf (Within.holds_free.reaches p) hp.2 he' hb
    rw [honly u' v' ht hbegins]

end Pattern

end SnippetGate
