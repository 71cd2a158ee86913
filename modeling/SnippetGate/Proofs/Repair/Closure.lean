import SnippetGate.Proofs.Balance.Names
import SnippetGate.Proofs.Contract.Mount
import SnippetGate.Proofs.Denylist.Closers
import SnippetGate.Repair.Closure

/-!
# Appended closing tags hold no denied code

The closing tags go before the parenthesis that ends the returned value, or on lines of their own
before its line. Their names are names of tags that stand in the text.
-/

namespace SnippetGate

open Pattern

/-! ### The closing tags -/

theorem Frame.Named.namesTag {t : Text} {f : Frame} (h : f.Named t) (hk : f.kind = .tag) :
    NamesTag t f.token := by
  rcases h hk with h | ⟨hname, r, hr, hend⟩
  · exact .inl h
  · exact .inr ⟨hname, t.take f.pos, r, by rw [← hr, List.take_append_drop], hend⟩

namespace Closers

variable {t : Text}

theorem closerOf {f : Frame} (h : f.Named t) (hk : f.kind = .tag) :
    Closers t (Repair.closerOf f) := .tag (h.namesTag hk) .nil

theorem isFiller_of_isIndent {z : Char} (h : Text.isIndent z = true) : isFiller z = true := by
  simp only [Text.isIndent, Bool.or_eq_true, beq_iff_eq] at h
  rcases h with rfl | rfl <;> decide

theorem isFiller_of_mem_indentAt {u : Text} {z : Char} {p : Nat} (h : z ∈ u.indentAt p) :
    isFiller z = true :=
  isFiller_of_isIndent (List.all_eq_true.mp List.all_takeWhile z h)

end Closers

namespace Repair

variable {cfg : Settings} {t : Text}

/-! ### Where they go -/

/-- The end of a body begins with a parenthesis, between the two offsets. -/
theorem lastBodyClose?_spec {i j n : Nat} (h : lastBodyClose? t i j = some n) :
    (∃ r, t.drop n = ')' :: r) ∧ i ≤ n ∧ n < j := by
  obtain ⟨m, hm, rfl⟩ := Option.map_eq_some_iff.mp h
  have hf := finds_of_findLast? hm
  obtain ⟨a, hsplit, hstart, -⟩ := hf.split
  obtain ⟨u, hu, hlast⟩ := mem_ends_seq.mp hf.last
  obtain ⟨q, hq⟩ := exists_over_of_mem_ends hlast
  have htext : m.text = ')' :: q := ((mem_ends_char hu).1.trans hq).between
  have hdrop : t.drop i = t.slice i j ++ (t.drop i).drop (j - i) := by
    rw [Text.slice, List.drop_take, List.take_append_drop]
  refine ⟨?_, Nat.le_add_right .., ?_⟩
  · rw [← List.drop_drop, hdrop, hsplit, hstart, htext, List.append_assoc, List.drop_left]
    exact ⟨_, rfl⟩
  · have hlen : (t.slice i j).length ≤ j - i := by
      rw [Text.slice, List.drop_take]
      exact List.length_take_le ..
    have hlonger := congrArg List.length hsplit
    simp only [htext, List.length_append, List.length_cons] at hlonger
    omega

/-- What is known of the plan for a text. -/
structure Fits (cfg : Settings) (t : Text) (p : ClosurePlan) : Prop where
  tags : ∀ f ∈ p.tags, f.Named t ∧ f.kind = .tag
  region : ∃ r, t.drop p.region = 'f' :: r
  anchor : ∃ r, t.drop p.anchor = ')' :: r
  le : p.region ≤ p.anchor
  lt_mount : ∀ m, cfg.mountCall.findLast? t = some m → p.region < m.start → p.anchor < m.start

theorem fits_of_closurePlan? {p : ClosurePlan} (h : closurePlan? cfg t = some p) :
    Fits cfg t p := by
  simp only [closurePlan?, Option.bind_eq_bind, Option.bind_eq_some_iff, Option.pure_def,
    Option.some.injEq] at h
  obtain ⟨declaration, hd, -, -, -, -, -, -, anchor, hanchor, -, -, rfl⟩ := h
  have hf := finds_of_searchFrom? hd
  obtain ⟨a, ht, hstart, -⟩ := hf.split
  obtain ⟨hparen, hle, hlt⟩ := lastBodyClose?_spec hanchor
  refine ⟨fun f hf => ?_, ?_, hparen, hle, fun m hm hlater => ?_⟩
  · obtain ⟨hmem, hkind⟩ := List.mem_filter.mp hf
    have hle : declaration.start ≤ t.length := by
      rw [hstart, ht, List.length_append]
      exact Nat.le_add_right ..
    exact ⟨Scan.named_of_mem_unclosed hle hmem, by simpa using hkind⟩
  · obtain ⟨u₀, h₀, hlast⟩ := mem_ends_seq.mp hf.last
    obtain ⟨rfl, -⟩ := mem_ends_wordEdge h₀
    obtain ⟨u₁, h₁, hlast⟩ := mem_ends_seq.mp hlast
    obtain ⟨q, hq⟩ := exists_over_of_mem_ends hlast
    have htext : declaration.text = "function".toList ++ q :=
      ((mem_ends_text h₁).1.trans hq).between
    dsimp only
    rw [ht, hstart, List.drop_left, htext]
    exact ⟨_, rfl⟩
  · have hlater : declaration.start < m.start := hlater
    rw [hm] at hlt
    simpa [hlater] using hlt

/-- Behind a mount call that goes across the place before the end of the body another one stands:
the end of the body is looked for before the last. -/
theorem Fits.mounts_of_across {p : ClosurePlan} (h : Fits .standard t p) {n : Nat}
    (hn : n ≤ p.anchor) (hblank : ∀ z ∈ t.slice n p.anchor, isBlank z = true)
    (ha : Mounts.Across (t.take n) (t.drop n)) : Mounts (t.drop n) := by
  obtain ⟨a, c, d, q, hl, hr, -, hd, hw, hfresh⟩ := ha
  have ht : t = a ++ ((c ++ d) ++ q) := by
    rw [← List.take_append_drop n t, hl, hr]
    simp
  obtain ⟨f, hregion⟩ := h.region
  obtain ⟨z, hanchor⟩ := h.anchor
  have hlen : (a ++ c).length = n := by
    have hlt : p.anchor < t.length := by
      have := congrArg List.length hanchor
      rw [List.length_drop, List.length_cons] at this
      omega
    rw [← hl, List.length_take, Nat.min_eq_left (by omega)]
  have hlater : p.region < n := by
    by_contra hge
    rw [not_lt] at hge
    have hmem : 'f' ∈ t.slice n p.anchor := by
      have hne : p.region ≠ p.anchor := by
        intro he
        rw [he, hanchor] at hregion
        cases hregion
      have hlt : p.region < p.anchor := Nat.lt_of_le_of_ne h.le hne
      rw [Text.slice, List.drop_take]
      refine List.mem_iff_getElem?.mpr ⟨p.region - n, ?_⟩
      rw [List.getElem?_take_of_lt (by omega), List.getElem?_drop, Nat.add_sub_cancel' hge,
        ← List.head?_drop, hregion]
      rfl
    exact absurd (hblank _ hmem) (by decide)
  have hafter : p.region < a.length := by
    by_contra hge
    rw [not_lt] at hge
    refine hw.not_mem (z := 'f') (by decide) (by decide) (List.mem_append_left _ ?_)
    refine List.mem_iff_getElem?.mpr ⟨p.region - a.length, ?_⟩
    have hget : t[p.region]? = some 'f' := by
      rw [← List.head?_drop, hregion]
      rfl
    rw [List.length_append] at hlen
    rw [ht, List.getElem?_append_right hge, List.append_assoc,
      List.getElem?_append_left (by omega)] at hget
    exact hget
  obtain ⟨m, hm, hstart⟩ := exists_findLast?_mountCall (q := q) hw hfresh
  rw [← ht] at hm
  have hlt := h.lt_mount m hm (by omega)
  obtain ⟨b, w, g, s, hsplit, hw', hfresh', hb, -⟩ := mount_of_finds (finds_of_findLast? hm)
  rw [hsplit, List.drop_append_of_le_length (by omega)]
  refine ⟨b.drop n, w, _, rfl, hw', Fresh.of_append (u := b.take n) ?_⟩
  rwa [List.take_append_drop]

/-! ### Putting them there -/

/-- Closing tags with blanks before them. No mount call goes over their beginning, and one may
begin behind them. -/
structure Closing (y : Text) : Prop where
  split : ∃ g q, y = g ++ '<' :: '/' :: q ∧ (∀ z ∈ g, isBlank z = true) ∧ '(' ∉ q
  fresh : Fresh y

/-- Closing tags before something that closes bring no denied code about, if behind every mount
call that goes across their place another one stands. -/
theorem denied_of_closers {l y r : Text} (hy : Closers (l ++ r) y) (hclosing : y ≠ [] → Closing y)
    (hr : Sequel.Closed r) (hhead : ∀ z ∈ r.head?, isBlank z = true ∨ z = ')')
    (hcross : ∀ m₁ m₂, Clause (m₁ ++ (y ++ m₂)) → Clause (m₁ ++ m₂))
    (hmount : Mounts.Across l r → Mounts r)
    (hd : DeniedFor Calm (l ++ (y ++ r))) : DeniedFor Calm (l ++ r) := by
  by_cases hne : y = []
  · rwa [hne] at hd
  obtain ⟨⟨g, q, hsplit, hg, hq⟩, hfresh⟩ := hclosing hne
  have hsign : ∀ z ∈ r.head?, isSignChar z = false := fun z hz => by
    rcases hhead z hz with h | rfl
    · exact not_isSignChar_of_isBlank h
    · decide
  have hcall : ∀ z ∈ r.head?, z ∉ "render(".toList := fun z hz hmem => by
    rcases hhead z hz with h | rfl
    · simp [(by decide : ∀ z ∈ "render(".toList, isBlank z = false) z hmem] at h
    · exact absurd hmem (by decide)
  have hswap : Swap l [] y r :=
    { left := parts_of_head fun z hz => by
        obtain ⟨c, y, rfl⟩ := List.exists_cons_of_ne_nil hne
        exact hy.head z hz
      right := parts_of_head hsign
      sequel := fun s => (hy.closed hr).holds hr
      fresh := .inl hsign }
  refine hswap.deniedFor_of_closers hy (fun k b hk => hk.imp fun hb => ?_)
    (fun a m₁ m₂ b hl hr' _ hm hp => ⟨hcross m₁ m₂ hm, ?_⟩) hd
  · have hb' : Mounts (b ++ (g ++ '<' :: '/' :: (q ++ r))) := by
      rw [hsplit] at hb
      simpa using hb
    rcases hb'.cases_of_closer hg hq hcall with h | h
    · exact h.append_right r
    · refine h.append_left_of_head fun z hz => ?_
      rintro rfl
      exact hcall _ hz (by decide)
  · refine hp.elim (fun hk => ?_) .inr
    have hm₂ : ¬ Mounts m₂ := fun h =>
      hk (by simpa using h.append_left (fresh_append_of_ne_nil m₁ hne hfresh))
    refine or_iff_not_imp_left.mpr fun hmounts => ?_
    rcases (not_not.mp hmounts).cases_append with h | h | ⟨p, c, d, q, rfl, rfl, hc, hd', hw, hp⟩
    · exact absurd (h.append_right (y ++ m₂)) hk
    · exact absurd h hm₂
    · have hpne : p ≠ [] := by
        rintro rfl
        obtain ⟨z, hz, hblank⟩ := hm.head
        obtain ⟨x, c, rfl⟩ := List.exists_cons_of_ne_nil hc
        obtain ⟨k, hk⟩ := hw.exists_cons
        obtain rfl := (List.cons.inj hk).1
        obtain rfl := Option.some.inj hz
        exact absurd hblank (by decide)
      have hmore := hmount ⟨a ++ importWord ++ p, c, d, q ++ (fromWord ++ b), by simp [hl],
        by simp [hr'], hc, hd', hw, fresh_append_of_ne_nil _ hpne hp⟩
      rw [hr'] at hmore
      exact hmore.cases_of_from.resolve_left hm₂

/-- The lines of closing tags begin a clause that does not go on. -/
theorem clause_of_closerLines {fs : List Frame} {m₁ m₂ : Text}
    (h : Clause (m₁ ++ ((fs.flatMap fun f => t.indentAt f.pos ++ closerOf f ++ ['\n']) ++ m₂))) :
    Clause (m₁ ++ m₂) := by
  cases fs with
  | nil => exact h
  | cons f fs =>
    refine absurd h ?_
    have he : m₁ ++ (((f :: fs).flatMap fun f => t.indentAt f.pos ++ closerOf f ++ ['\n']) ++ m₂) =
        (m₁ ++ t.indentAt f.pos) ++ '<' :: ('/' :: (f.token ++ '>' :: '\n' ::
          ((fs.flatMap fun f => t.indentAt f.pos ++ closerOf f ++ ['\n']) ++ m₂))) := by
      simp [closerOf, Closer.display]
    rw [he]
    exact Clause.not_of_mem (c := '\n') (by decide) (by decide) (by simp)

/-- Closing tags with blanks around each of them. -/
theorem closing_flatMap {g e : Frame → Text} {fs : List Frame}
    (hfs : ∀ f ∈ fs, f.Named t ∧ f.kind = .tag) (hg : ∀ f, ∀ z ∈ g f, isBlank z = true)
    (he : ∀ f, ∀ z ∈ e f, isBlank z = true)
    (hne : (fs.flatMap fun f => g f ++ closerOf f ++ e f) ≠ []) :
    Closing (fs.flatMap fun f => g f ++ closerOf f ++ e f) := by
  have hblank {b : Text} (hb : ∀ z ∈ b, isBlank z = true) : '(' ∉ b :=
    fun h => absurd (hb _ h) (by decide)
  have htoken : ∀ f ∈ fs, '(' ∉ f.token := fun f hf hmem => by
    rcases (hfs f hf).1.namesTag (hfs f hf).2 with h | ⟨h, -⟩
    · simp [h] at hmem
    · exact absurd (h.isTagNameChar _ hmem) (by decide)
  have hpiece : ∀ f ∈ fs, '(' ∉ g f ++ closerOf f ++ e f := fun f hf => by
    simp [closerOf, Closer.display, hblank (hg f), hblank (he f), htoken f hf]
  constructor
  · cases fs with
    | nil => exact absurd rfl hne
    | cons f fs =>
      obtain ⟨hf, hrest⟩ := List.forall_mem_cons.mp htoken
      refine ⟨g f, f.token ++ '>' :: (e f ++ fs.flatMap fun f => g f ++ closerOf f ++ e f),
        by simp [closerOf, Closer.display], hg f, ?_⟩
      have hlater : '(' ∉ fs.flatMap fun f => g f ++ closerOf f ++ e f := fun h => by
        obtain ⟨f', hf', h⟩ := List.mem_flatMap.mp h
        exact hpiece f' (List.mem_cons_of_mem _ hf') h
      simp only [List.mem_append, List.mem_cons, not_or]
      exact ⟨hf, by decide, hblank (he f), hlater⟩
  · clear hne htoken hpiece hfs
    induction fs with
    | nil => exact fresh_nil
    | cons f fs ih =>
      rw [List.flatMap_cons]
      refine Fresh.append (fun z hz => ?_) ih
      by_cases hnil : e f = []
      · rw [hnil, List.append_nil, closerOf, Closer.display, ← List.append_assoc, Option.mem_def,
          List.getLast?_concat] at hz
        obtain rfl := Option.some.inj hz
        decide
      · rw [List.getLast?_append_of_ne_nil _ hnil] at hz
        exact Sign.afterMember_of_isBlank (he f z (List.mem_of_getLast? hz))

theorem denied_of_carryOut {p : ClosurePlan} (h : Fits .standard t p)
    (hd : DeniedFor Calm (carryOut t p)) : DeniedFor Calm t := by
  obtain ⟨r, hr⟩ := h.anchor
  have hclosed : Sequel.Closed (')' :: r) := Sequel.closed_cons (by decide)
  have htags : ∀ f ∈ p.tags.reverse, f.Named t ∧ f.kind = .tag :=
    fun f hf => h.tags f (List.mem_reverse.mp hf)
  rw [carryOut] at hd
  split at hd
  · next hblank =>
    generalize hi : t.lineStart p.anchor = i at hd hblank
    have hle : i ≤ (t.take p.anchor).length := by
      rw [← hi, Text.lineStart]
      exact Nat.sub_le ..
    have hdrop : t.drop i = t.slice i p.anchor ++ ')' :: r := by
      rw [← hr, Text.slice, ← List.drop_append_of_le_length hle, List.take_append_drop]
    have hall : ∀ z ∈ t.slice i p.anchor, isBlank z = true := List.all_eq_true.mp hblank
    rw [List.append_assoc] at hd
    have := denied_of_closers (l := t.take i) (r := t.drop i) (.flatMap fun f hf => ?_)
      (closing_flatMap htags (fun f z hz => ?_) fun _ => by decide) ?_ ?_
      (fun _ _ => clause_of_closerLines)
      (h.mounts_of_across (hle.trans (List.length_take_le ..)) hall) hd
    · rwa [List.take_append_drop] at this
    · rw [List.take_append_drop]
      obtain ⟨hn, hk⟩ := htags f hf
      rw [List.append_assoc]
      exact .fillers (fun _ => Closers.isFiller_of_mem_indentAt)
        ((Closers.closerOf hn hk).append (.filler (by decide) .nil))
    · exact isBlank_of_isIndent (List.all_eq_true.mp List.all_takeWhile z hz)
    · rw [hdrop]
      exact hclosed.blanks_append hall
    · rw [hdrop]
      intro z hz
      rcases List.mem_append.mp (List.mem_of_head? (Option.mem_def.mp hz)) with h | h
      · exact .inl (hall z h)
      · cases hs : t.slice i p.anchor with
        | nil =>
          rw [hs] at hz
          exact .inr (Option.some.inj hz).symm
        | cons c s =>
          rw [hs] at hz hall
          obtain rfl := Option.some.inj hz
          exact .inl (hall c List.mem_cons_self)
  · have hy : Closers t (p.tags.reverse.flatMap closerOf) := .flatMap fun f hf =>
      .closerOf (htags f hf).1 (htags f hf).2
    rw [List.append_assoc] at hd
    have := denied_of_closers (l := t.take p.anchor) (r := t.drop p.anchor)
      (by rwa [List.take_append_drop]) (fun hne => ?_) (hr ▸ hclosed) ?_ (fun m₁ m₂ hm => ?_)
      (h.mounts_of_across (Nat.le_refl _) ?_) hd
    · rwa [List.take_append_drop] at this
    · simpa using closing_flatMap (g := fun _ => []) (e := fun _ => []) htags (fun _ => nofun)
        (fun _ => nofun) (by simpa using hne)
    · intro z hz
      rw [hr] at hz
      exact .inr (Option.some.inj hz).symm
    · cases hnil : p.tags.reverse with
      | nil => rwa [hnil] at hm
      | cons f fs =>
        rw [hnil] at hm
        refine hm.swap (x := []) (by simp [closerOf, Closer.display]) (fun z hz => ?_) nofun
        obtain rfl := Option.some.inj hz
        decide
    · simp [Text.slice]

/-- The missing closing tags bring no denied code about. -/
theorem denied_of_withClosers (hd : DeniedFor Calm (withClosers .standard t)) :
    DeniedFor Calm t := by
  rw [withClosers] at hd
  split at hd
  · exact hd
  · next p hp =>
    dsimp only at hd
    split at hd
    · exact denied_of_carryOut (fits_of_closurePlan? hp) hd
    · exact hd

end Repair

end SnippetGate
