import SnippetGate.Pattern.Search
import SnippetGate.Proofs.Text.Cursor

/-!
# Where pieces end

An end of a piece is a later place of the same text. So a match is a part of its text, and all
that is found in a text are such parts.
-/

namespace SnippetGate

namespace Cursor

/-! ### The characters beside a place -/

theorem isAfter_eq_any (q : Char → Bool) (c : Cursor) :
    c.isAfter q = c.before.reverse.getLast?.any q := by
  obtain ⟨n, b, t⟩ := c
  cases b <;> simp [isAfter]

theorem isBefore_eq_any (q : Char → Bool) (c : Cursor) : c.isBefore q = c.after.head?.any q := by
  obtain ⟨n, b, t⟩ := c
  cases t <;> simp [isBefore]

theorem over_next {c : Cursor} {p : Char → Bool} (h : c.isBefore p = true) :
    ∃ x, p x = true ∧ c.Over [x] c.next := by
  unfold isBefore at h
  split at h
  · cases h
  · next x r ha => exact ⟨x, h, over_skip_one ha⟩

/-- A run leads over characters of its class, and over any of those that come first. -/
theorem mem_runFrom {p : Char → Bool} {d : Cursor} {pos : Nat} {before t : Text}
    {acc : List Cursor} (h : d ∈ runFrom p pos before t acc) :
    d ∈ acc ∨ ∃ a, (∀ x ∈ a, p x = true) ∧ (⟨pos, before, t⟩ : Cursor).Over a d := by
  induction t generalizing pos before acc with
  | nil =>
    rcases List.mem_cons.mp h with rfl | h
    · exact .inr ⟨[], nofun, over_nil _⟩
    · exact .inl h
  | cons x r ih =>
    rw [runFrom] at h
    split at h
    · next hx =>
      rcases ih h with h | ⟨a, ha, ho⟩
      · rcases List.mem_cons.mp h with rfl | h
        · exact .inr ⟨[], nofun, over_nil _⟩
        · exact .inl h
      · have h₁ : (⟨pos, before, x :: r⟩ : Cursor).Over [x] ⟨pos + 1, x :: before, r⟩ :=
          ⟨rfl, rfl, rfl⟩
        exact .inr ⟨x :: a, List.forall_mem_cons.mpr ⟨hx, ha⟩, h₁.trans ho⟩
    · rcases List.mem_cons.mp h with rfl | h
      · exact .inr ⟨[], nofun, over_nil _⟩
      · exact .inl h

theorem mem_runEnds {p : Char → Bool} {c d : Cursor} (h : d ∈ c.runEnds p) :
    ∃ a, (∀ x ∈ a, p x = true) ∧ c.Over a d :=
  (mem_runFrom h).resolve_left List.not_mem_nil

end Cursor

namespace Pattern

variable {a b : Pattern} {s t : Progress}

/-! ### The ends of each pattern -/

theorem mem_ends_one {p : Char → Bool} (h : t ∈ (one p).ends s) :
    ∃ x, p x = true ∧ s.cursor.Over [x] t.cursor ∧ t.captures = s.captures := by
  rw [ends] at h
  split at h
  · next hx =>
    obtain rfl := List.mem_singleton.mp h
    obtain ⟨x, hp, ho⟩ := Cursor.over_next hx
    exact ⟨x, hp, ho, rfl⟩
  · cases h

theorem mem_ends_run {p : Char → Bool} {greedy : Bool} (h : t ∈ (run p greedy).ends s) :
    ∃ q, (∀ x ∈ q, p x = true) ∧ s.cursor.Over q t.cursor ∧ t.captures = s.captures := by
  rw [ends] at h
  obtain ⟨c, hc, rfl⟩ := List.mem_map.mp h
  have hc' : c ∈ s.cursor.runEnds p := by
    cases greedy
    · exact List.mem_reverse.mp hc
    · exact hc
  obtain ⟨q, hq, ho⟩ := Cursor.mem_runEnds hc'
  exact ⟨q, hq, ho, rfl⟩

theorem mem_ends_seq : t ∈ (seq a b).ends s ↔ ∃ u ∈ a.ends s, t ∈ b.ends u := by
  rw [ends, List.mem_flatMap]

theorem mem_ends_alt : t ∈ (alt a b).ends s ↔ t ∈ a.ends s ∨ t ∈ b.ends s := by
  rw [ends, List.mem_append]

theorem mem_ends_empty (h : t ∈ empty.ends s) : t = s := List.mem_singleton.mp h

theorem mem_ends_char {x : Char} (h : t ∈ (char x).ends s) :
    s.cursor.Over [x] t.cursor ∧ t.captures = s.captures := by
  obtain ⟨y, hy, ho, hc⟩ := mem_ends_one h
  obtain rfl : y = x := by simpa using hy
  exact ⟨ho, hc⟩

theorem mem_ends_text {w : Text} (h : t ∈ (text w).ends s) :
    s.cursor.Over w t.cursor ∧ t.captures = s.captures := by
  induction w generalizing s with
  | nil =>
    obtain rfl := mem_ends_empty h
    exact ⟨Cursor.over_nil _, rfl⟩
  | cons x w ih =>
    cases w with
    | nil => exact mem_ends_char h
    | cons y w =>
      obtain ⟨u, hu, ht⟩ := mem_ends_seq.mp h
      obtain ⟨ho, hc⟩ := mem_ends_char hu
      obtain ⟨ho', hc'⟩ := ih ht
      exact ⟨ho.trans ho', hc'.trans hc⟩

theorem mem_ends_group {n : Nat} (h : t ∈ (group n a).ends s) :
    ∃ u ∈ a.ends s, t = u.remember n s.cursor := by
  rw [ends] at h
  obtain ⟨u, hu, rfl⟩ := List.mem_map.mp h
  exact ⟨u, hu, rfl⟩

theorem mem_ends_wordEdge (h : t ∈ wordEdge.ends s) : t = s ∧ s.cursor.atWordEdge = true := by
  rw [ends] at h
  split at h
  · next he => exact ⟨List.mem_singleton.mp h, he⟩
  · cases h

theorem mem_ends_notAfter {p : Char → Bool} (h : t ∈ (notAfter p).ends s) :
    t = s ∧ s.cursor.isAfter p = false := by
  rw [ends] at h
  split at h
  · cases h
  · next ha => exact ⟨List.mem_singleton.mp h, by simpa using ha⟩

theorem mem_ends_ahead (h : t ∈ (ahead a).ends s) : t = s := by
  rw [ends] at h
  split at h
  · cases h
  · exact List.mem_singleton.mp h

theorem mem_ends_textEnd (h : t ∈ textEnd.ends s) : t = s ∧ s.cursor.atTextEnd = true := by
  rw [ends] at h
  split at h
  · next he => exact ⟨List.mem_singleton.mp h, he⟩
  · cases h

theorem mem_repeatEnds {step : Progress → List Progress} {greedy : Bool} {n : Nat}
    (h : t ∈ repeatEnds step greedy (n + 1) s) :
    t = s ∨ ∃ u ∈ step s, t ∈ repeatEnds step greedy n u := by
  rw [repeatEnds] at h
  have hmore (h : t ∈ (step s).flatMap fun u =>
      if s.cursor.pos < u.cursor.pos then repeatEnds step greedy n u else []) :
      ∃ u ∈ step s, t ∈ repeatEnds step greedy n u := by
    obtain ⟨u, hu, ht⟩ := List.mem_flatMap.mp h
    split at ht
    · exact ⟨u, hu, ht⟩
    · cases ht
  cases greedy
  · rcases List.mem_cons.mp h with h | h
    · exact .inl h
    · exact .inr (hmore h)
  · rcases List.mem_append.mp h with h | h
    · exact .inr (hmore h)
    · exact .inl (List.mem_singleton.mp h)

/-- A repetition stays where it is or ends with a last copy. -/
theorem mem_repeatEnds_last {step : Progress → List Progress} {greedy : Bool} {n : Nat}
    (h : t ∈ repeatEnds step greedy n s) : t = s ∨ ∃ u, t ∈ step u := by
  induction n generalizing s with
  | zero => exact .inl (List.mem_singleton.mp h)
  | succ n ih =>
    rcases mem_repeatEnds h with rfl | ⟨u, hu, ht⟩
    · exact .inl rfl
    · rcases ih ht with rfl | h
      · exact .inr ⟨s, hu⟩
      · exact .inr h

/-- Copies of a pattern end with a copy of it. -/
theorem mem_ends_plus (h : t ∈ (plus a).ends s) : ∃ u, t ∈ a.ends u := by
  obtain ⟨u, hu, ht⟩ := mem_ends_seq.mp h
  rcases mem_repeatEnds_last ht with rfl | h
  · exact ⟨s, hu⟩
  · exact h

theorem over_of_eq (h : t = s) : s.cursor.Over [] t.cursor := h ▸ Cursor.over_nil _

/-- A check takes nothing. -/
theorem eq_of_mem_ite {p : Prop} [Decidable p] (h : t ∈ if p then [s] else []) : t = s := by
  split at h
  · exact List.mem_singleton.mp h
  · cases h

theorem eq_of_mem_ite_not {p : Prop} [Decidable p] (h : t ∈ if p then [] else [s]) : t = s := by
  split at h
  · cases h
  · exact List.mem_singleton.mp h

theorem exists_over_of_mem_repeatEnds {step : Progress → List Progress} {greedy : Bool} {n : Nat}
    (hstep : ∀ {s t : Progress}, t ∈ step s → ∃ p, s.cursor.Over p t.cursor)
    (h : t ∈ repeatEnds step greedy n s) : ∃ p, s.cursor.Over p t.cursor := by
  induction n generalizing s with
  | zero => exact ⟨[], over_of_eq (List.mem_singleton.mp h)⟩
  | succ n ih =>
    rcases mem_repeatEnds h with rfl | ⟨u, hu, ht⟩
    · exact ⟨[], Cursor.over_nil _⟩
    · obtain ⟨p, hp⟩ := hstep hu
      obtain ⟨q, hq⟩ := ih ht
      exact ⟨p ++ q, hp.trans hq⟩

/-- An end lies farther on in the same text. -/
theorem exists_over_of_mem_ends (h : t ∈ a.ends s) : ∃ p, s.cursor.Over p t.cursor := by
  induction a generalizing s t with
  | empty => exact ⟨[], over_of_eq (List.mem_singleton.mp h)⟩
  | one p => obtain ⟨x, -, ho, -⟩ := mem_ends_one h; exact ⟨_, ho⟩
  | run p greedy => obtain ⟨q, -, ho, -⟩ := mem_ends_run h; exact ⟨_, ho⟩
  | seq a b iha ihb =>
    obtain ⟨u, hu, ht⟩ := mem_ends_seq.mp h
    obtain ⟨p, hp⟩ := iha hu
    obtain ⟨q, hq⟩ := ihb ht
    exact ⟨p ++ q, hp.trans hq⟩
  | alt a b iha ihb =>
    rcases mem_ends_alt.mp h with h | h
    · exact iha h
    · exact ihb h
  | star a greedy ih => exact exists_over_of_mem_repeatEnds ih h
  | group n a ih =>
    rw [ends] at h
    obtain ⟨u, hu, rfl⟩ := List.mem_map.mp h
    obtain ⟨p, hp⟩ := ih hu
    exact ⟨p, hp⟩
  | again n =>
    rw [ends] at h
    split at h
    · cases h
    · next g hg =>
      split at h
      · next hp =>
        obtain rfl := List.mem_singleton.mp h
        obtain ⟨r, hr⟩ := List.isPrefixOf_iff_prefix.mp hp
        exact ⟨_, Cursor.over_skip hr.symm⟩
      · cases h
  | ahead a => rw [ends] at h; exact ⟨[], over_of_eq (eq_of_mem_ite_not h)⟩
  | notAfter p => rw [ends] at h; exact ⟨[], over_of_eq (eq_of_mem_ite_not h)⟩
  | _ => rw [ends] at h; exact ⟨[], over_of_eq (eq_of_mem_ite h)⟩

/-- Whether a pattern has no group. -/
def isUngrouped : Pattern → Bool
  | seq a b => a.isUngrouped && b.isUngrouped
  | alt a b => a.isUngrouped && b.isUngrouped
  | star a _ => a.isUngrouped
  | group _ _ => false
  | _ => true

theorem captures_of_mem_repeatEnds {step : Progress → List Progress} {greedy : Bool} {n : Nat}
    (hstep : ∀ {s t : Progress}, t ∈ step s → t.captures = s.captures)
    (h : t ∈ repeatEnds step greedy n s) : t.captures = s.captures := by
  induction n generalizing s with
  | zero => rw [List.mem_singleton.mp h]
  | succ n ih =>
    rcases mem_repeatEnds h with rfl | ⟨u, hu, ht⟩
    · rfl
    · exact (ih ht).trans (hstep hu)

/-- A pattern without a group remembers nothing. -/
theorem captures_of_mem_ends (ha : a.isUngrouped = true) (h : t ∈ a.ends s) :
    t.captures = s.captures := by
  induction a generalizing s t with
  | one p => exact (mem_ends_one h).choose_spec.2.2
  | run p greedy => exact (mem_ends_run h).choose_spec.2.2
  | seq a b iha ihb =>
    rw [isUngrouped, Bool.and_eq_true] at ha
    obtain ⟨u, hu, ht⟩ := mem_ends_seq.mp h
    exact (ihb ha.2 ht).trans (iha ha.1 hu)
  | alt a b iha ihb =>
    rw [isUngrouped, Bool.and_eq_true] at ha
    rcases mem_ends_alt.mp h with h | h
    · exact iha ha.1 h
    · exact ihb ha.2 h
  | star a greedy ih => exact captures_of_mem_repeatEnds (fun h => ih ha h) h
  | group n a ih => cases ha
  | again n =>
    rw [ends] at h
    split at h
    · cases h
    · split at h
      · rw [List.mem_singleton.mp h]; rfl
      · cases h
  | ahead a => rw [ends] at h; rw [eq_of_mem_ite_not h]
  | notAfter p => rw [ends] at h; rw [eq_of_mem_ite_not h]
  | empty => rw [mem_ends_empty h]
  | _ => rw [ends] at h; rw [eq_of_mem_ite h]

/-- A chain of patterns ends with a piece of its last one. -/
theorem mem_ends_all_concat {l : List Pattern} (h : t ∈ (all (l ++ [a])).ends s) :
    ∃ q u, s.cursor.Over q u.cursor ∧ t ∈ a.ends u := by
  induction l generalizing s with
  | nil => exact ⟨[], s, Cursor.over_nil _, h⟩
  | cons p l ih =>
    have hseq : t ∈ (seq p (all (l ++ [a]))).ends s := by
      cases l <;> exact h
    obtain ⟨v, hv, ht⟩ := mem_ends_seq.mp hseq
    obtain ⟨k, hk⟩ := exists_over_of_mem_ends hv
    obtain ⟨q, u, hq, hu⟩ := ih ht
    exact ⟨k ++ q, u, hk.trans hq, hu⟩

end Pattern

/-! ### Matches -/

namespace Pattern

variable {p : Pattern} {c : Cursor} {m : Match}

/-- A piece of a pattern in the text after a place. -/
structure Finds (p : Pattern) (c : Cursor) (m : Match) : Prop where
  first : ∃ a, c.Over a m.first
  last : m.last ∈ p.ends ⟨m.first, []⟩

theorem Finds.of_over {d : Cursor} {a : Text} (h : p.Finds d m) (ho : c.Over a d) :
    p.Finds c m := by
  obtain ⟨b, hb⟩ := h.first
  exact ⟨⟨a ++ b, ho.trans hb⟩, h.last⟩

/-- What is found is between two places of the text. -/
theorem Finds.exists_over (h : p.Finds c m) :
    ∃ a b, c.Over a m.first ∧ m.first.Over b m.last.cursor := by
  obtain ⟨a, ha⟩ := h.first
  obtain ⟨b, hb⟩ := exists_over_of_mem_ends h.last
  exact ⟨a, b, ha, hb⟩

/-- What is found is a part of the text, and its offsets say where. -/
theorem Finds.split {t : Text} (h : p.Finds (.ofText t) m) :
    ∃ a, t = a ++ (m.text ++ m.last.cursor.after) ∧ m.start = a.length ∧
      m.stop = a.length + m.text.length := by
  obtain ⟨a, b, ha, hb⟩ := h.exists_over
  have hpos : m.first.pos = a.length := ha.pos.trans (Nat.zero_add _)
  have htext : m.text = b := hb.between
  refine ⟨a, ?_, hpos, ?_⟩
  · rw [htext, ← hb.after]
    exact ha.after
  · rw [htext, ← hpos]
    exact hb.pos

theorem finds_of_matchAt? (h : p.matchAt? c = some m) : p.Finds c m := by
  rw [matchAt?_eq_head?] at h
  cases he : p.ends ⟨c, []⟩ with
  | nil => simp [he] at h
  | cons t ts =>
    rw [he] at h
    obtain rfl := Option.some.inj h
    exact ⟨⟨[], Cursor.over_nil c⟩, he ▸ List.mem_cons_self⟩

theorem finds_of_searchFrom? (h : p.searchFrom? c = some m) : p.Finds c m := by
  obtain ⟨pos, before, t⟩ := c
  unfold searchFrom? at h
  dsimp only at h
  induction t generalizing pos before with
  | nil => exact finds_of_matchAt? h
  | cons x r ih =>
    rw [searchIn?] at h
    split at h
    · next m' hm =>
      obtain rfl := Option.some.inj h
      exact finds_of_matchAt? hm
    · exact (ih _ _ h).of_over (a := [x]) ⟨rfl, rfl, rfl⟩

theorem finds_of_mem_findUpTo {n : Nat} (h : m ∈ p.findUpTo n c) : p.Finds c m := by
  induction n generalizing c with
  | zero => cases h
  | succ n ih =>
    rw [findUpTo] at h
    split at h
    · cases h
    · next m' hm =>
      have hf := finds_of_searchFrom? hm
      obtain ⟨a, b, ha, hb⟩ := hf.exists_over
      rcases List.mem_cons.mp h with rfl | h
      · exact hf
      · split at h
        · exact (ih h).of_over (ha.trans hb)
        · split at h
          · cases h
          · next hne =>
            have hx : m'.last.cursor.isBefore (fun _ => true) = true := by
              unfold Cursor.isBefore
              split <;> simp_all
            obtain ⟨x, -, ho⟩ := Cursor.over_next hx
            exact (ih h).of_over ((ha.trans hb).trans ho)

theorem finds_of_mem_findAll {t : Text} (h : m ∈ p.findAll t) : p.Finds (.ofText t) m :=
  finds_of_mem_findUpTo h

theorem finds_of_findLast? {t : Text} (h : p.findLast? t = some m) : p.Finds (.ofText t) m :=
  finds_of_mem_findAll (List.mem_of_getLast? h)

end Pattern

end SnippetGate
