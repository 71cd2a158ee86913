import SnippetGate.Proofs.Tsx.Filling

/-!
# Splicing is exact

Edits are carried out from the last to the first. What comes out is what one pass from the left
would give: the bytes between the ranges that are replaced, each piece as it was, with the
replacements in their places. The edits that are carried out are those that a pass over the edits in
the order of their beginnings keeps.
-/

namespace SnippetGate.Edit

variable {bs : Bytes} {e : Edit} {es kept : List Edit} {i j : Nat}

/-- The edit replaces a range of the bytes. -/
@[mk_iff fits_iff]
structure Fits (bs : Bytes) (e : Edit) : Prop where
  start_le_stop : e.start ≤ e.stop
  stop_le_length : e.stop ≤ bs.length

/-- The bytes that an edit replaces. -/
def range (bs : Bytes) (e : Edit) : Bytes := bs.slice e.start e.stop

/-- Keep an edit behind those already kept, unless it begins before the last of them has ended. -/
def keep (kept : List Edit) (e : Edit) : List Edit :=
  if kept.getLast?.any (e.start < ·.stop) then kept else kept ++ [e]

/-- The bytes from offset `i` on that no edit replaces: those before the first range, those between
each range and the next, and those after the last one. -/
def gaps (bs : Bytes) : Nat → List Edit → List Bytes
  | i, [] => [bs.drop i]
  | i, e :: es => bs.slice i e.start :: gaps bs e.stop es

/-- The pieces one after the other, with something between each and the next. -/
def interleave : List Bytes → List Bytes → Bytes
  | g :: gs, r :: rs => g ++ (r ++ interleave gs rs)
  | gs, _ => gs.flatten

/-! ### The order of the edits -/

/-- The same edits in the order of their beginnings. Those with one beginning keep their order. -/
structure IsStablySorted (es sorted : List Edit) : Prop where
  perm : sorted.Perm es
  ordered : sorted.Pairwise fun a b => a.start ≤ b.start
  stable : ∀ i, sorted.filter (·.start == i) = es.filter (·.start == i)

theorem isStablySorted_sorted (es : List Edit) : IsStablySorted es (sorted es) := by
  have htrans (a b c : Edit) : decide (a.start ≤ b.start) = true →
      decide (b.start ≤ c.start) = true → decide (a.start ≤ c.start) = true := by
    simpa using fun h₁ h₂ => h₁.trans h₂
  have htotal (a b : Edit) : (decide (a.start ≤ b.start) || decide (b.start ≤ a.start)) = true := by
    simpa using Nat.le_total a.start b.start
  have hperm : (sorted es).Perm es := List.mergeSort_perm es _
  refine ⟨hperm, ?_, fun i => ?_⟩
  · exact (List.pairwise_mergeSort htrans htotal es).imp of_decide_eq_true
  · -- the edits that begin at one offset are in order, so they are found in the same order
    have hequal : (es.filter (·.start == i)).Pairwise
        fun a b => decide (a.start ≤ b.start) = true := by
      refine List.pairwise_of_forall_mem_list fun a ha b hb => ?_
      have ha' := (List.mem_filter.mp ha).2
      have hb' := (List.mem_filter.mp hb).2
      rw [beq_iff_eq] at ha' hb'
      rw [ha', hb', decide_eq_true le_rfl]
    have hsub : (es.filter (·.start == i)).Sublist (sorted es) :=
      List.sublist_mergeSort htrans htotal hequal List.filter_sublist
    have hsub' := hsub.filter (·.start == i)
    rw [List.filter_filter] at hsub'
    simp only [Bool.and_self] at hsub'
    exact (hsub'.eq_of_length (hperm.filter _).length_eq.symm).symm

/-! ### The edits that are kept -/

theorem foldl_keep (kept es : List Edit) :
    es.foldl keep kept =
      kept ++ disjointFrom ((kept.getLast?.map Edit.stop).getD 0) es := by
  induction es generalizing kept with
  | nil => rw [disjointFrom, List.append_nil, List.foldl_nil]
  | cons e es ih =>
    rw [List.foldl_cons, ih, disjointFrom, keep]
    cases hlast : kept.getLast? with
    | none => simp
    | some last =>
      by_cases hlt : e.start < last.stop
      · simp [hlt, hlast]
      · simp [hlt]

/-- The edits that are carried out are those that one pass from the left keeps. -/
theorem chosen_eq_foldl (es : List Edit) : chosen es = (sorted es).foldl keep [] :=
  (foldl_keep [] (sorted es)).symm

/-- The ranges of the edits lie in the bytes from offset `i` on, one behind the other. -/
def Follow (bs : Bytes) : Nat → List Edit → Prop
  | i, [] => i ≤ bs.length
  | i, e :: es => i ≤ e.start ∧ e.start ≤ e.stop ∧ Follow bs e.stop es

theorem follow_disjointFrom (h : ∀ e ∈ es, e.Fits bs) (hi : i ≤ bs.length) :
    Follow bs i (disjointFrom i es) := by
  induction es generalizing i with
  | nil => exact hi
  | cons e es ih =>
    obtain ⟨he, hes⟩ := List.forall_mem_cons.mp h
    rw [disjointFrom]
    split
    · exact ih hes hi
    · next hstart => exact ⟨Nat.not_lt.mp hstart, he.1, ih hes he.2⟩

theorem follow_chosen (h : ∀ e ∈ es, e.Fits bs) : Follow bs 0 (chosen es) :=
  follow_disjointFrom (fun e he => h e (List.mem_mergeSort.mp he)) (Nat.zero_le _)

theorem Follow.le_length (h : Follow bs i kept) : i ≤ bs.length := by
  induction kept generalizing i with
  | nil => exact h
  | cons e es ih => exact h.1.trans (h.2.1.trans (ih h.2.2))

theorem Follow.le_start (h : Follow bs i kept) : ∀ e ∈ kept, i ≤ e.start := by
  induction kept generalizing i with
  | nil => exact List.forall_mem_nil _
  | cons e es ih =>
    exact List.forall_mem_cons.mpr
      ⟨h.1, fun e' he' => (h.1.trans h.2.1).trans (ih h.2.2 e' he')⟩

theorem Follow.disjoint (h : Follow bs i kept) : kept.Pairwise fun a b => a.stop ≤ b.start := by
  induction kept generalizing i with
  | nil => exact .nil
  | cons e es ih => exact .cons h.2.2.le_start (ih h.2.2)

/-! ### The bytes -/

theorem take_append_slice (bs : Bytes) (h : i ≤ j) : bs.take i ++ bs.slice i j = bs.take j := by
  have htake : bs.take i = (bs.take j).take i := by rw [List.take_take, Nat.min_eq_left h]
  rw [htake, Bytes.slice, List.take_append_drop]

theorem slice_append_drop (bs : Bytes) (h : i ≤ j) : bs.slice i j ++ bs.drop j = bs.drop i := by
  have hsplit : bs.take i ++ (bs.slice i j ++ bs.drop j) = bs.take i ++ bs.drop i := by
    rw [← List.append_assoc, take_append_slice bs h, List.take_append_drop,
      List.take_append_drop]
  exact List.append_cancel_left hsplit

/-- With the ranges between them, the gaps are the source. -/
theorem Follow.interleave_range (h : Follow bs i kept) :
    interleave (gaps bs i kept) (kept.map (range bs)) = bs.drop i := by
  induction kept generalizing i with
  | nil => simp [gaps, interleave]
  | cons e es ih =>
    rw [gaps, List.map_cons, interleave, ih h.2.2, range, slice_append_drop bs h.2.1,
      slice_append_drop bs h.1]

/-- An edit leaves alone what is made behind its range, and keeps what stands before it. -/
theorem applyTo_append (h : e.start ≤ e.stop) (hlen : e.stop ≤ bs.length) (tail : Bytes) :
    e.applyTo (bs.take e.stop ++ tail) = bs.take e.start ++ (e.replacement ++ tail) := by
  have hlength : (bs.take e.stop).length = e.stop := List.length_take_of_le hlen
  have htake : (bs.take e.stop ++ tail).take e.start = bs.take e.start := by
    rw [List.take_append_of_le_length (by rw [hlength]; exact h), List.take_take,
      Nat.min_eq_left h]
  have hdrop : (bs.take e.stop ++ tail).drop e.stop = tail := List.drop_left' hlength
  rw [applyTo, htake, hdrop, List.append_assoc]

/-- With the replacements between them, the gaps are what the edits make of the source. -/
theorem Follow.foldr_applyTo (h : Follow bs i kept) :
    kept.foldr applyTo bs =
      bs.take i ++ interleave (gaps bs i kept) (kept.map Edit.replacement) := by
  induction kept generalizing i with
  | nil => simp [gaps, interleave]
  | cons e es ih =>
    obtain ⟨hi, he, hes⟩ := h
    calc (e :: es).foldr applyTo bs
        = e.applyTo (bs.take e.stop ++
            interleave (gaps bs e.stop es) (es.map Edit.replacement)) := by
          rw [List.foldr_cons, ih hes]
      _ = bs.take e.start ++ (e.replacement ++
            interleave (gaps bs e.stop es) (es.map Edit.replacement)) :=
          applyTo_append he hes.le_length _
      _ = _ := by
          rw [gaps, List.map_cons, interleave, ← take_append_slice bs hi, List.append_assoc]

/-! ### The names -/

/-- The names of a list, each of them once, in the order in which they first occur. -/
structure IsOnceEach (names once : List Text) : Prop where
  mem_iff : ∀ n, n ∈ once ↔ n ∈ names
  nodup : once.Nodup
  ordered : once.Pairwise fun m n => names.idxOf m < names.idxOf n

theorem eraseDups_concat (names : List Text) (n : Text) :
    (names ++ [n]).eraseDups = if n ∈ names then names.eraseDups else names.eraseDups ++ [n] := by
  rw [List.eraseDups_append]
  by_cases hn : n ∈ names <;> simp [List.removeAll, hn, List.eraseDups_cons]

theorem pairwise_idxOf_eraseDups (names : List Text) :
    names.eraseDups.Pairwise fun m n => names.idxOf m < names.idxOf n := by
  induction names using List.reverseRecOn with
  | nil => exact .nil
  | append_singleton names n ih =>
    have hkeeps : ∀ m ∈ names.eraseDups, (names ++ [n]).idxOf m = names.idxOf m := fun m hm =>
      List.idxOf_append_of_mem (List.mem_eraseDups.mp hm)
    have hold : names.eraseDups.Pairwise
        fun a b => (names ++ [n]).idxOf a < (names ++ [n]).idxOf b :=
      ih.imp_of_mem fun ha hb hlt => by rwa [hkeeps _ ha, hkeeps _ hb]
    rw [eraseDups_concat]
    split
    · exact hold
    · next hn =>
      -- what is new occurs behind all that occurred before
      refine List.pairwise_append.mpr ⟨hold, List.pairwise_singleton _ _, fun a ha b hb => ?_⟩
      obtain rfl := List.mem_singleton.mp hb
      rw [hkeeps a ha, List.idxOf_append_of_notMem hn]
      exact Nat.lt_of_lt_of_le (List.idxOf_lt_length_of_mem (List.mem_eraseDups.mp ha))
        (Nat.le_add_right _ _)

theorem isOnceEach_eraseDups (names : List Text) : IsOnceEach names names.eraseDups where
  mem_iff _ := List.mem_eraseDups
  nodup := (pairwise_idxOf_eraseDups names).imp fun h => by
    rintro rfl
    exact absurd h (lt_irrefl _)
  ordered := pairwise_idxOf_eraseDups names

/-! ### The result -/

/-- The result of carrying out the edits in `kept`, whose ranges are disjoint: the gaps between them
with the replacements in place of the ranges, and the names of the edits. -/
structure IsSplice (bs : Bytes) (kept : List Edit) (result : Bytes × List Text) : Prop where
  disjoint : kept.Pairwise fun a b => a.stop ≤ b.start
  source : interleave (gaps bs 0 kept) (kept.map (range bs)) = bs
  bytes : result.1 = interleave (gaps bs 0 kept) (kept.map Edit.replacement)
  names : IsOnceEach (kept.map Edit.name) result.2

/-- Edits whose ranges lie in the bytes are spliced exactly. Sorted stably by their beginnings, they
are kept in one pass from the left, each unless it begins before the last one kept has ended; and
the result is that of those that are kept. -/
theorem isSplice_splice (h : ∀ e ∈ es, e.Fits bs) :
    IsStablySorted es (sorted es) ∧
      IsSplice bs ((sorted es).foldl keep []) (splice bs es) := by
  refine ⟨isStablySorted_sorted es, ?_⟩
  rw [← chosen_eq_foldl]
  have hfollow := follow_chosen h
  exact
    { disjoint := hfollow.disjoint
      source := hfollow.interleave_range
      bytes := hfollow.foldr_applyTo
      names := isOnceEach_eraseDups _ }

/-- Three edits that overlap, two of them at one place, and one that only puts something in. -/
def crossedEdits : List Edit :=
  [⟨2, 4, [0x78], "b".toList⟩, ⟨0, 3, [0x79, 0x7A], "a".toList⟩, ⟨3, 3, [], "b".toList⟩,
    ⟨3, 5, [0x77], "a".toList⟩]

theorem isSplice_splice_crossedEdits :
    (∀ e ∈ crossedEdits, e.Fits [1, 2, 3, 4, 5, 6]) ∧
      IsStablySorted crossedEdits (sorted crossedEdits) ∧
      IsSplice [1, 2, 3, 4, 5, 6] ((sorted crossedEdits).foldl keep [])
        ([0x79, 0x7A, 0x77, 6], ["a".toList, "b".toList]) := by
  have hfits : ∀ e ∈ crossedEdits, e.Fits [1, 2, 3, 4, 5, 6] := by
    simp [crossedEdits, fits_iff]
  have hsplice : splice [1, 2, 3, 4, 5, 6] crossedEdits =
      ([0x79, 0x7A, 0x77, 6], ["a".toList, "b".toList]) := by cbv
  exact ⟨hfits, hsplice ▸ isSplice_splice hfits⟩

end SnippetGate.Edit
