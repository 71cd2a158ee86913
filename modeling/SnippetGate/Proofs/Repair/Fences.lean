import SnippetGate.Proofs.Pattern.Fits
import SnippetGate.Proofs.Pattern.Last
import SnippetGate.Repair.Cleanup

/-!
# Text in a fenced block

A fence is a line of its own, and what stands on other lines does not matter to it. So a text
without its fences has none, and a fenced text without them is what it was, with a newline behind
it, if no line of its own could be a fence.
-/

namespace SnippetGate

open Pattern

/-- The line that begins a fenced block. -/
def openingFence : Text := "\x60\x60\x60jsx\n".toList

/-- The characters that end a fenced block. -/
def closingFence : Text := "\x60\x60\x60".toList

/-- A text as a fenced block. -/
def fenced (t : Text) : Text := openingFence ++ (t ++ '\n' :: closingFence)

theorem length_fenced (t : Text) : (fenced t).length = 7 + (t.length + 4) := by
  rw [fenced, List.length_append, List.length_append]
  rfl

namespace Pattern

variable {p : Pattern} {n : Nat} {l r t : Text}

/-- A search passes the places where no piece begins. -/
theorem searchIn?_append (h : ∀ u v, t = u ++ v → v ≠ [] →
      ¬ p.Leads ⟨⟨n + u.length, u.reverse ++ l, v ++ r⟩, []⟩ fun _ => True) :
    p.searchIn? n l (t ++ r) = p.searchIn? (n + t.length) (t.reverse ++ l) r := by
  induction t generalizing n l with
  | nil => rfl
  | cons x t ih =>
    have hnone : p.matchAt? ⟨n, l, x :: (t ++ r)⟩ = none := by
      have := h [] (x :: t) rfl (List.cons_ne_nil _ _)
      rwa [← isSome_matchAt?, Bool.not_eq_true, Option.isSome_eq_false_iff,
        Option.isNone_iff_eq_none] at this
    rw [List.cons_append, searchIn?, hnone]
    dsimp only
    rw [ih fun u v hu hv => ?_]
    · simp [Nat.add_assoc, Nat.add_comm 1]
    · simpa [Nat.add_assoc, Nat.add_comm 1] using h (x :: u) v (by rw [hu, List.cons_append]) hv

theorem searchFrom?_of_matchAt? {c : Cursor} {m : Match} (h : p.matchAt? c = some m) :
    p.searchFrom? c = some m := by
  obtain ⟨n, b, t⟩ := c
  cases t with
  | nil => exact h
  | cons x t => rw [searchFrom?, searchIn?, h]

end Pattern

namespace Repair

variable {u v w t : Text}

/-- The last character of a text belongs to its last part. -/
theorem exists_of_concat_eq_append {x : Char} (h : t ++ [x] = u ++ v) (hv : v ≠ []) :
    ∃ s, v = s ++ [x] ∧ t = u ++ s := by
  have hlast := congrArg List.getLast? h
  rw [List.getLast?_concat, List.getLast?_append_of_ne_nil u hv] at hlast
  obtain ⟨s, rfl⟩ := List.getLast?_eq_some_iff.mp hlast.symm
  rw [← List.append_assoc] at h
  exact ⟨s, rfl, List.append_cancel_right h⟩

/-- The first line of the text is a fence, if a line begins there. -/
def OpensFence (t : Text) : Prop :=
  ∃ q x q' e, (∀ y ∈ q, Text.isIndent y = true) ∧ (∀ y ∈ x, (isWord y || y == '-') = true) ∧
    (∀ y ∈ q', Text.isIndent y = true) ∧ t = q ++ (closingFence ++ (x ++ q')) ++ e ∧
    ∀ y ∈ e.head?, y = '\n'

theorem fits_fenceLine (h : fenceLine.Fits u w v) : BeginsLine u ∧ OpensFence (w ++ v) := by
  obtain ⟨_, _, rfl, ⟨rfl, hu⟩, q, _, rfl, hq, _, _, rfl, hmark, x, _, rfl, hx, q', e, rfl, hq',
    he⟩ := h
  obtain rfl := fits_text.mp hmark
  refine ⟨hu, q, x, q', e ++ v, hq, hx, hq', by simp [closingFence], ?_⟩
  rcases he with ⟨y, rfl, hy⟩ | ⟨rfl, hv⟩
  · obtain rfl : y = '\n' := by simpa using hy
    simp
  · exact hv

namespace OpensFence

theorem exists_fits (h : OpensFence t) (hu : BeginsLine u) :
    ∃ w v, t = w ++ v ∧ fenceLine.Fits u w v := by
  obtain ⟨q, x, q', e, hq, hx, hq', rfl, he⟩ := h
  exact ⟨_, e, rfl, [], _, rfl, ⟨rfl, hu⟩, q, _, rfl, hq, closingFence, _, rfl, fits_text.mpr rfl,
    x, _, rfl, hx, q', [], (List.append_nil q').symm, hq', .inr ⟨rfl, he⟩⟩

theorem exists_head (h : OpensFence t) : ∃ y ∈ t.head?, y ≠ '\n' := by
  obtain ⟨q, x, q', e, hq, -, -, rfl, -⟩ := h
  cases q with
  | nil => exact ⟨'\x60', rfl, by decide⟩
  | cons y q =>
    refine ⟨y, rfl, ?_⟩
    rintro rfl
    exact absurd (hq _ List.mem_cons_self) (by decide)

/-- What stands behind the first line does not matter. -/
theorem of_newline {s k : Text} (h : OpensFence (s ++ '\n' :: k)) : OpensFence s := by
  obtain ⟨q, x, q', e, hq, hx, hq', he, hend⟩ := h
  have hn : '\n' ∉ q ++ (closingFence ++ (x ++ q')) := by
    simp only [List.mem_append, not_or]
    exact ⟨fun hm => absurd (hq _ hm) (by decide), by decide,
      fun hm => absurd (hx _ hm) (by decide), fun hm => absurd (hq' _ hm) (by decide)⟩
  -- the fence ends before the newline
  obtain ⟨z, rfl, hz⟩ : ∃ z, s = q ++ (closingFence ++ (x ++ q')) ++ z ∧ e = z ++ '\n' :: k := by
    rcases List.append_eq_append_iff.mp he.symm with ⟨z, rfl, rfl⟩ | ⟨z, hs, he⟩
    · exact ⟨z, rfl, rfl⟩
    · cases z with
      | nil => exact ⟨[], by simpa using hs.symm, he.symm⟩
      | cons y z =>
        obtain ⟨rfl, -⟩ := List.cons.inj he
        exact absurd (hs ▸ List.mem_append_right s List.mem_cons_self) hn
  refine ⟨q, x, q', z, hq, hx, hq', rfl, fun y hy => hend y ?_⟩
  rw [hz, List.head?_append, Option.mem_def.mp hy]
  exact rfl

theorem newline {s : Text} (h : OpensFence s) (k : Text) : OpensFence (s ++ '\n' :: k) := by
  obtain ⟨q, x, q', e, hq, hx, hq', rfl, he⟩ := h
  refine ⟨q, x, q', e ++ '\n' :: k, hq, hx, hq', by simp, ?_⟩
  cases e with
  | nil => simp
  | cons y e => simpa using he

end OpensFence

theorem occursIn_fenceLine_iff :
    fenceLine.occursIn t = true ↔ ∃ u s, t = u ++ s ∧ BeginsLine u ∧ OpensFence s := by
  rw [occursIn_iff rfl]
  constructor
  · rintro ⟨u, w, v, rfl, h⟩
    exact ⟨u, w ++ v, rfl, fits_fenceLine h⟩
  · rintro ⟨u, s, rfl, hu, hs⟩
    obtain ⟨w, v, rfl, h⟩ := hs.exists_fits hu
    exact ⟨u, w, v, rfl, h⟩

/-- A newline behind a text does not bring a fence about. -/
theorem occursIn_fenceLine_newline (h : fenceLine.occursIn t = false) :
    fenceLine.occursIn (t ++ ['\n']) = false := by
  rw [← Bool.not_eq_true, occursIn_fenceLine_iff] at h ⊢
  rintro ⟨u, s, he, hu, hs⟩
  have hne : s ≠ [] := by
    rintro rfl
    simpa using hs.exists_head
  obtain ⟨s, rfl, rfl⟩ := exists_of_concat_eq_append he hne
  exact h ⟨u, s, rfl, hu, hs.of_newline⟩

/-- Inside of a fenced block only its own lines can be fences. -/
theorem not_leads_fenceLine (h : fenceLine.occursIn t = false) {n : Nat}
    (ht : t ++ ['\n'] = u ++ v) (hv : v ≠ []) :
    ¬ fenceLine.Leads ⟨⟨n, u.reverse ++ openingFence.reverse, v ++ closingFence⟩, []⟩
      fun _ => True := by
  rintro ⟨m, hm, -⟩
  obtain ⟨w, ho, hf⟩ := exists_fits_of_mem_ends (p := fenceLine) rfl hm
  obtain ⟨s, rfl, rfl⟩ := exists_of_concat_eq_append ht hv
  have hafter : s ++ ['\n'] ++ closingFence = w ++ m.cursor.after := ho.after
  obtain ⟨hline, hopens⟩ := fits_fenceLine hf
  have hu : BeginsLine u := by
    intro y hy
    refine hline y ?_
    rw [List.reverse_append, List.reverse_reverse, List.reverse_reverse, List.getLast?_append,
      Option.mem_def.mp hy]
    exact rfl
  rw [← hafter, List.append_assoc] at hopens
  rw [← Bool.not_eq_true, occursIn_fenceLine_iff] at h
  exact h ⟨u, s, rfl, hu, hopens.of_newline⟩

/-- Behind the opening fence. -/
def inBlock (t : Text) : Cursor := ⟨7, openingFence.reverse, t ++ '\n' :: closingFence⟩

/-- Before the closing fence. -/
def atClosing (t : Text) : Cursor :=
  ⟨7 + (t.length + 1), '\n' :: (t.reverse ++ openingFence.reverse), closingFence⟩

theorem searchFrom?_fenced (t : Text) :
    fenceLine.searchFrom? (.ofText (fenced t)) = some ⟨.ofText (fenced t), ⟨inBlock t, []⟩⟩ :=
  searchFrom?_of_matchAt? rfl

theorem searchFrom?_atClosing (t : Text) :
    fenceLine.searchFrom? (atClosing t) = some ⟨atClosing t, ⟨(atClosing t).skip 3, []⟩⟩ :=
  searchFrom?_of_matchAt? rfl

theorem searchFrom?_behindBlock (t : Text) :
    fenceLine.searchFrom? ((atClosing t).skip 3) = none := rfl

theorem searchFrom?_inBlock (h : fenceLine.occursIn t = false) :
    fenceLine.searchFrom? (inBlock t) = some ⟨atClosing t, ⟨(atClosing t).skip 3, []⟩⟩ := by
  rw [← searchFrom?_atClosing]
  have hskip := searchIn?_append (p := fenceLine) (n := 7) (l := openingFence.reverse)
    (r := closingFence) (t := t ++ ['\n']) fun u v ht hv => not_leads_fenceLine h ht hv
  simpa [searchFrom?, inBlock, atClosing] using hskip

/-- The fences of a fenced text are its first and its last line. -/
theorem findAll_fenceLine_fenced (h : fenceLine.occursIn t = false) :
    fenceLine.findAll (fenced t) = [⟨.ofText (fenced t), ⟨inBlock t, []⟩⟩,
      ⟨atClosing t, ⟨(atClosing t).skip 3, []⟩⟩] := by
  have hlength : (fenced t).length + 1 = t.length + 9 + 1 + 1 + 1 := by
    rw [length_fenced]
    omega
  have hopening : (Cursor.ofText (fenced t)).pos < (inBlock t).pos := Nat.zero_lt_succ 6
  have hclosing : (atClosing t).pos < ((atClosing t).skip 3).pos :=
    Nat.lt_add_of_pos_right (Nat.zero_lt_succ 2)
  rw [findAll, hlength, findUpTo, searchFrom?_fenced]
  dsimp only
  rw [if_pos hopening, findUpTo, searchFrom?_inBlock h]
  dsimp only
  rw [if_pos hclosing, findUpTo, searchFrom?_behindBlock]

/-- A fenced text without its fences. -/
theorem replaceAll_fenceLine_fenced (h : fenceLine.occursIn t = false) :
    fenceLine.replaceAll (fun _ => []) (fenced t) = t ++ ['\n'] := by
  have hdrop : (fenced t).drop (7 - 0) = t ++ ['\n'] ++ closingFence := by
    rw [List.append_assoc]
    rfl
  have htake : (t ++ ['\n'] ++ closingFence).take (7 + (t.length + 1) - 7) = t ++ ['\n'] :=
    List.take_left' (by simp)
  have hend : (t ++ ['\n'] ++ closingFence).drop (7 + (t.length + 1) + 3 - 7) = [] :=
    List.drop_eq_nil_of_le (by
      rw [List.length_append, List.length_append, show closingFence.length = 3 from rfl,
        List.length_singleton]
      omega)
  rw [replaceAll, findAll_fenceLine_fenced h]
  change [] ++ [] ++ (List.take (7 + (t.length + 1) - 7) ((fenced t).drop (7 - 0)) ++ [] ++
    ((fenced t).drop (7 - 0)).drop (7 + (t.length + 1) + 3 - 7)) = t ++ ['\n']
  rw [hdrop, htake, hend]
  simp

/-! ### Fences are gone for good -/

/-- Behind a fence a line begins, or the present one ends there. -/
theorem beginsLine_or_of_fits (h : fenceLine.Fits u w v) :
    BeginsLine (u ++ w) ∨ ∀ y ∈ v.head?, y = '\n' := by
  obtain ⟨_, _, rfl, -, q, _, rfl, -, _, _, rfl, -, x, _, rfl, -, q', e, rfl, -, he⟩ := h
  rcases he with ⟨y, rfl, hy⟩ | ⟨rfl, hv⟩
  · obtain rfl : y = '\n' := by simpa using hy
    refine .inl fun y hy => ?_
    simpa [List.getLast?_append, eq_comm] using hy
  · exact .inr hv

theorem ne_nil_of_fits (h : fenceLine.Fits u w v) : w ≠ [] := by
  obtain ⟨_, _, rfl, ⟨rfl, -⟩, q, _, rfl, -, _, _, rfl, hmark, -⟩ := h
  obtain rfl := fits_text.mp hmark
  simp

/-- Without the fences that are found in it from a place on, a text has none, if a line begins or
ends at the place. -/
theorem occursIn_fillIn_fenceLine (n : Nat) (c : Cursor) (hn : c.after.length < n)
    (hc : BeginsLine c.before.reverse ∨ ∀ y ∈ c.after.head?, y = '\n') :
    fenceLine.occursIn (fillIn (fun _ => []) (fenceLine.findUpTo n c) c.pos c.after) = false := by
  induction n generalizing c with
  | zero => cases hn
  | succ n ih =>
    -- a line that begins in what is read begins in the whole text as well
    have hleads {u s : Text} (hu : BeginsLine u) (hs : OpensFence s) (he : c.after = u ++ s) :
        fenceLine.Leads ⟨⟨c.pos + u.length, u.reverse ++ c.before, s⟩, []⟩ fun _ => True := by
      have hline : BeginsLine (c.before.reverse ++ u) := by
        rcases List.eq_nil_or_concat u with rfl | ⟨u, x, rfl⟩
        · rw [List.append_nil]
          refine hc.resolve_right fun hend => ?_
          obtain ⟨y, hy, hne⟩ := hs.exists_head
          exact hne (hend y (he ▸ hy))
        · simpa [BeginsLine, List.getLast?_append] using hu
      obtain ⟨w, v, rfl, hf⟩ := hs.exists_fits hline
      have := leads_of_fits hf (c.pos + u.length) []
      rw [List.reverse_append, List.reverse_reverse] at this
      exact this.imp fun _ h => ⟨h.1, trivial⟩
    rw [← Bool.not_eq_true, occursIn_fenceLine_iff]
    rintro ⟨u, s, he, hu, hs⟩
    rw [findUpTo] at he
    split at he
    · next hnone =>
      have hsome : (fenceLine.searchFrom? c).isSome = true :=
        isSome_searchIn?.mpr ⟨u, s, he, hleads hu hs he⟩
      rw [hnone] at hsome
      cases hsome
    · next m hm =>
      have hfinds := finds_of_searchFrom? hm
      obtain ⟨a, ha⟩ := hfinds.first
      obtain ⟨b, hb, hf⟩ := exists_fits_of_mem_ends (p := fenceLine) rfl hfinds.last
      have hne := ne_nil_of_fits hf
      have hlength := List.length_pos_of_ne_nil hne
      have hlater : m.first.pos < m.last.cursor.pos := by
        rw [hb.pos]
        exact Nat.lt_add_of_pos_right hlength
      have hafter : c.after = a ++ (b ++ m.last.cursor.after) := by rw [ha.after, hb.after]
      have hstart : m.start - c.pos = a.length := by rw [Match.start, ha.pos]; omega
      have hstop : m.stop - c.pos = (a ++ b).length := by
        rw [Match.stop, hb.pos, ha.pos, List.length_append]
        omega
      have hrest := ih m.last.cursor (by simp only [hafter, List.length_append] at hn; omega) (by
        rw [hb.before, List.reverse_append, List.reverse_reverse]
        exact beginsLine_or_of_fits hf)
      dsimp only at he
      rw [if_pos hlater, fillIn, hstart, hstop, hafter, List.take_left, ← List.append_assoc a b,
        List.drop_left, List.append_nil] at he
      rw [← Bool.not_eq_true, occursIn_fenceLine_iff] at hrest
      rcases List.append_eq_append_iff.mp he with ⟨k, rfl, hk⟩ | ⟨k, rfl, rfl⟩
      · -- the fence begins behind the one that is gone
        refine hrest ⟨k, s, hk, fun y hy => hu y ?_, hs⟩
        rw [List.getLast?_append, Option.mem_def.mp hy]
        exact rfl
      · rcases List.eq_nil_or_concat k with rfl | ⟨k, z, rfl⟩
        · exact hrest ⟨[], _, rfl, fun y hy => absurd hy (Option.not_mem_none y), hs⟩
        · -- the line of the fence ends before the one that is gone, and stands in the text
          obtain rfl : z = '\n' := by
            refine (fits_fenceLine hf).1 z ?_
            rw [ha.before, List.reverse_append, List.reverse_reverse]
            simp [List.getLast?_append]
          rw [List.concat_eq_append, List.append_assoc, List.singleton_append] at hs
          have hopens := hs.of_newline.newline (b ++ m.last.cursor.after)
          have hwhole : c.after = u ++ (k ++ '\n' :: (b ++ m.last.cursor.after)) := by
            rw [hafter]
            simp
          have hle : m.start ≤ c.pos + u.length := by
            rw [searchFrom?, hwhole] at hm
            exact start_le_of_searchIn? hm (hleads hu hopens hwhole)
          simp only [List.concat_eq_append, List.length_append, List.length_singleton] at hstart
          omega

/-- Without its fences, a text has none. -/
theorem occursIn_replaceAll_fenceLine (t : Text) :
    fenceLine.occursIn (fenceLine.replaceAll (fun _ => []) t) = false :=
  occursIn_fillIn_fenceLine (t.length + 1) (.ofText t) (Nat.lt_succ_self _)
    (.inl fun y hy => absurd hy (Option.not_mem_none y))

end Repair

end SnippetGate
