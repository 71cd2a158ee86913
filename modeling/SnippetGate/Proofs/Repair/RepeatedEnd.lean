import SnippetGate.Proofs.Balance.BlockEnd
import SnippetGate.Proofs.Balance.Stopping
import SnippetGate.Proofs.Repair.Gate

/-!
# No end is taken from a balanced component

Valid code may end like a component that ends twice. If such an end is taken away, the closing brace
of the component goes with it, and behind what is left of the block only the mount call follows. So
the block stays open, the text costs more than before, and the change is not kept.
-/

namespace SnippetGate

open Pattern Grammar ScanState

variable {front block kept lost r t u : Text}

/-! ### The block of a balanced text -/

/-- In a balanced text the block of a brace to which script leads ends with a closing brace. -/
theorem Text.exists_brace_of_isBalanced
    (hread : ∀ c d : Cursor, c.Over front d → Reads .script c d)
    (h : (Scan.ofText (front ++ '{' :: r)).isBalanced = true) :
    ∃ q rest, r = q ++ '}' :: rest ∧
      (front ++ '{' :: r).blockEnd? front.length = some (front ++ '{' :: (q ++ ['}'])).length := by
  have hdrop := drop_brace front r
  have hin := inWhole_behindBrace front r
  have hbrace := walks_behindBrace hread r
  obtain ⟨s, hw, -, hs⟩ := exists_walksOpen_run hin
  have hwalk := hbrace.trans hw.walks
  -- the scan of the whole text finds nothing wrong and leaves nothing open
  obtain ⟨hissues, -, hframes⟩ :=
    of_isBalanced_outcome ((inWhole_start _).walks (walks_run _ _)).closedAt? h
  have hclosed : s.stack.frames = [] := hs.elim id fun hafter => by
    rwa [(inWhole_start _).run_eq_of_after hwalk hafter] at hframes
  have hnone : s.issues = [] := by
    have hsuffix := Scan.suffix_issues_of_walks hwalk hclosed (walks_run_of_walks hwalk)
    rw [hissues] at hsuffix
    exact List.suffix_nil.mp hsuffix
  -- so the scan of the block finds nothing wrong either
  have hend := blockEnd?_of_behindBrace hw hclosed
  obtain ⟨u, hwu, hu⟩ :=
    (beside_behindBrace front r).symm.walksOpen hin (Text.inWhole_intoBlock hdrop) hw
  have hscan : ((front ++ '{' :: r).blockScan front.length).issues = [] := by
    rw [Text.blockScan_of_walksOpen hdrop hwu (hu.stack ▸ hclosed), ← hu.issues, hnone]
    rfl
  obtain ⟨v, opener, x, -, -, hframes', hx, hpos, hopener, hlast⟩ :=
    exists_last_of_blockEnd? hdrop hend
  obtain rfl : '{' = opener := by
    by_contra hne
    rw [hscan, issues_closeBracket hframes', if_neg hne] at hlast
    simp at hlast
  obtain rfl : x = '}' := by simpa [IsPair] using isPair_of_openerOf? hopener
  obtain ⟨a, y, ha, hstop, -⟩ := Text.exists_of_blockEnd? hdrop hend
  rw [hdrop] at ha
  obtain rfl : y = '}' := by
    have hv : v.cursor.pos = front.length + a.length := by omega
    rw [hv, List.getElem?_append_right (Nat.le_add_right ..), Nat.add_sub_cancel_left, ha,
      List.getElem?_append_right le_rfl, Nat.sub_self] at hx
    exact Option.some.inj hx
  cases a with
  | nil => cases (List.cons.inj ha).1
  | cons z a =>
    obtain ⟨rfl, hr⟩ := List.cons.inj ha
    refine ⟨a, _, hr, ?_⟩
    rw [hend, hstop]
    simp only [List.length_append, List.length_cons, List.length_nil, Option.some.injEq]
    omega

namespace Repair

/-! ### What is left of a component -/

/-- A text with a block of which `kept` is left, and behind it a mount call and no brace. -/
def Keeps (front kept t : Text) : Prop :=
  ∃ b w s, t = front ++ '{' :: (kept ++ (b ++ (w ++ s))) ∧ (∀ z ∈ b, isBlank z = true) ∧
    IsMount w ∧ '}' ∉ w ++ s ∧ Fresh (front ++ '{' :: (kept ++ b))

/-- Behind a repeated end there are blanks and the last mount call. -/
theorem Repeated.exists_mount {i j : Nat} {l g x p w s : Text} {z : Char}
    (h : Repeated .standard t i j l z g x r) (ht : t = p ++ (w ++ s)) (hw : IsMount w)
    (hp : Fresh p) (hbrace : '}' ∉ w ++ s) :
    ∃ b w' s', r = b ++ (w' ++ s') ∧ (∀ y ∈ b, isBlank y = true) ∧ IsMount w' ∧
      '}' ∉ w' ++ s' := by
  obtain ⟨hsplit, -, hstop, -, -, -, -, b, q, rfl, hb, hmount⟩ := h
  obtain ⟨m, hm, hle⟩ := exists_findLast?_mountCall (q := s) hw hp
  rw [← ht] at hm
  obtain ⟨m', hm', hstart⟩ := hmount.resolve_left fun hno => by rw [hno.1] at hm; cases hm
  obtain rfl := Option.some.inj (hm.symm.trans hm')
  obtain ⟨a, w', c, s', ha, hw', -, hlength, -⟩ := mount_of_finds (finds_of_findLast? hm)
  have hq : q = w' ++ (c ++ (s' ++ m.last.cursor.after)) := by
    have hbefore : (l ++ z :: (g ++ x) ++ b).length = a.length := by
      rw [← hlength, hstart, hstop, List.length_append]
    exact List.append_inj_right (by rw [← ha, hsplit]; simp) hbefore
  refine ⟨b, w', _, by rw [hq], hb, hw', fun hmem => hbrace ?_⟩
  -- the last mount call does not begin before the other
  have hsuffix : w' ++ (c ++ (s' ++ m.last.cursor.after)) <:+ w ++ s := by
    refine List.suffix_of_suffix_length_le ⟨a, ha.symm⟩ ⟨p, ht.symm⟩ ?_
    have := congrArg List.length (ha.symm.trans ht)
    simp only [List.length_append] at this ⊢
    omega
  exact hsuffix.subset hmem

/-- A repeated end is the last of what is left of the block. -/
theorem Repeated.exists_kept {i j : Nat} {l g x v : Text} {z : Char}
    (h : Repeated .standard (front ++ '{' :: (kept ++ v)) i j l z g x r)
    (hfront : ∀ z ∈ front, z ≠ '}' ∧ z ≠ ';') (hv : '}' ∉ v) :
    ∃ kept' lost, l ++ z :: g = front ++ '{' :: kept' ∧ kept = kept' ++ lost ∧ lost ≠ [] := by
  obtain ⟨hsplit, -, -, hz, -, -, hx, -⟩ := h
  obtain ⟨x₁, x₂, rfl⟩ := List.append_of_mem hx
  -- the brace in the repeated end stands in the block
  obtain ⟨d, hd⟩ : ∃ d, front ++ '{' :: kept = (l ++ z :: g) ++ (x₁ ++ '}' :: d) := by
    have he : (l ++ z :: (g ++ x₁)) ++ '}' :: (x₂ ++ r) = (front ++ '{' :: kept) ++ v := by
      simpa using hsplit.symm
    rcases Text.cases_of_append_cons_eq he with ⟨d, -, hd⟩ | ⟨d, hd, -⟩
    · exact absurd (by simp [hd]) hv
    · exact ⟨d, by rw [hd]; simp⟩
  -- and the brace of the block stands before what it repeats
  rcases Text.cases_of_append_cons_eq hd with ⟨e, rfl, -⟩ | ⟨k, hk, rfl⟩
  · obtain ⟨hbrace, hsemicolon⟩ := hfront z (by simp)
    exact absurd hz (not_or.mpr ⟨hbrace, hsemicolon⟩)
  · exact ⟨k, x₁ ++ '}' :: d, hk, rfl, by simp⟩

/-- One round takes the last of what is left. -/
theorem Keeps.exists_of_duplicateUnit? {i j : Nat} (hfront : ∀ z ∈ front, z ≠ '}' ∧ z ≠ ';')
    (h : Keeps front kept t) (hunit : duplicateUnit? .standard t = some (i, j)) :
    ∃ kept' lost, kept = kept' ++ lost ∧ lost ≠ [] ∧ Keeps front kept' (t.take i ++ t.drop j) := by
  obtain ⟨b, w, s, rfl, hb, hw, hbrace, hfresh⟩ := h
  obtain ⟨l, z, g, x, r, hr⟩ := Repair.exists_of_duplicateUnit? hunit
  have hrest : '}' ∉ b ++ (w ++ s) := fun hmem =>
    (List.mem_append.mp hmem).elim (fun hmem => absurd (hb _ hmem) (by decide)) hbrace
  obtain ⟨kept', lost, hkept', rfl, hne⟩ := hr.exists_kept hfront hrest
  obtain ⟨b', w', s', rfl, hb', hw', hbrace'⟩ :=
    hr.exists_mount (p := front ++ '{' :: (kept' ++ lost ++ b)) (by simp) hw hfresh hbrace
  obtain ⟨hsplit, rfl, rfl, hz, hg, -⟩ := hr
  refine ⟨kept', lost, rfl, hne, b', w', s', ?_, hb', hw', hbrace', ?_⟩
  · have hdrop : l ++ z :: (g ++ (x ++ (b' ++ (w' ++ s')))) =
        (l ++ z :: (g ++ x)) ++ (b' ++ (w' ++ s')) := by simp
    have htake : l ++ z :: (g ++ (x ++ (b' ++ (w' ++ s')))) =
        (l ++ z :: g) ++ (x ++ (b' ++ (w' ++ s'))) := by simp
    rw [hsplit]
    conv_lhs => rw [hdrop, List.drop_left, ← hdrop, htake, List.take_left, hkept']
    simp
  · have hassoc : front ++ '{' :: (kept' ++ b') = l ++ z :: (g ++ b') := by
      rw [← List.cons_append, ← List.append_assoc, ← hkept']
      simp
    rw [hassoc]
    refine fresh_append_of_ne_nil l (List.cons_ne_nil _ _) (fresh_of_forall ?_)
    refine List.forall_mem_cons.mpr ⟨by rcases hz with rfl | rfl <;> decide, fun y hy => ?_⟩
    exact Sign.afterMember_of_isBlank ((List.mem_append.mp hy).elim (hg y) (hb' y))

/-- All rounds together take the last of what is left, if they take anything. -/
theorem Keeps.withoutDuplicates (hfront : ∀ z ∈ front, z ≠ '}' ∧ z ≠ ';') (h : Keeps front kept t)
    (n : Nat) : withoutDuplicates .standard n t = t ∨ ∃ kept' lost, kept = kept' ++ lost ∧
      lost ≠ [] ∧ Keeps front kept' (withoutDuplicates .standard n t) := by
  induction n generalizing kept t with
  | zero => exact .inl rfl
  | succ n ih =>
    rw [Repair.withoutDuplicates]
    cases hunit : duplicateUnit? .standard t with
    | none => exact .inl rfl
    | some offsets =>
      obtain ⟨i, j⟩ := offsets
      obtain ⟨k, lost, rfl, hne, hk⟩ := h.exists_of_duplicateUnit? hfront hunit
      dsimp only
      rcases ih hk with hsame | ⟨k', lost', rfl, -, hk'⟩
      · exact .inr ⟨k, lost, rfl, hne, hsame.symm ▸ hk⟩
      · exact .inr ⟨k', lost' ++ lost, by simp, by simp [hne], hk'⟩

/-- A text in which the end of the block is missing is not balanced. -/
theorem Keeps.not_isBalanced (hread : ∀ c d : Cursor, c.Over front d → Reads .script c d)
    (hend : (front ++ '{' :: (kept ++ lost ++ r)).blockEnd? front.length =
      some (front ++ '{' :: (kept ++ lost)).length) (hlost : lost ≠ []) (h : Keeps front kept t) :
    ¬ (Scan.ofText t).isBalanced = true := by
  intro hbalanced
  obtain ⟨b, w, s, rfl, hb, -, hbrace, -⟩ := h
  obtain ⟨q, rest, hq, hblock⟩ := Text.exists_brace_of_isBalanced hread hbalanced
  -- the brace that ends the block belongs to what is left
  obtain ⟨d, rfl⟩ : ∃ d, kept = q ++ '}' :: d := by
    rcases Text.cases_of_append_cons_eq hq.symm with ⟨d, -, hd⟩ | ⟨d, hd, -⟩
    · have hmem : '}' ∈ b ++ (w ++ s) := by simp [hd]
      rcases List.mem_append.mp hmem with hmem | hmem
      · exact absurd (hb _ hmem) (by decide)
      · exact absurd hmem hbrace
    · exact ⟨d, hd⟩
  have hend' : (front ++ ('{' :: (q ++ ['}']) ++ (d ++ (b ++ (w ++ s))))).blockEnd? front.length =
      some (front ++ '{' :: (q ++ ['}'])).length := by simpa using hblock
  have hagain := Text.blockEnd?_of_block (d ++ lost ++ r) ⟨q, '}', rfl, .inr (.inr rfl)⟩ hend'
  have hsame : front ++ ('{' :: (q ++ ['}']) ++ (d ++ lost ++ r)) =
      front ++ '{' :: (q ++ '}' :: d ++ lost ++ r) := by simp
  rw [hsame, hend] at hagain
  have hlength := List.length_pos_iff.mpr hlost
  simp only [List.length_append, List.length_cons, List.length_nil, Option.some.injEq] at hagain
  omega

/-- No end is taken from a balanced text whose block only blanks and a mount call follow. -/
theorem leaves_collapseUnits (hread : ∀ c d : Cursor, c.Over front d → Reads .script c d)
    (hfront : ∀ z ∈ front, z ≠ '}' ∧ z ≠ ';')
    (hend : (front ++ '{' :: (block ++ r)).blockEnd? front.length =
      some (front ++ '{' :: block).length) (h : Keeps front block (front ++ '{' :: (block ++ r)))
    (hbalanced : (Scan.ofText (front ++ '{' :: (block ++ r))).isBalanced = true) :
    (collapseUnits .standard).Leaves (front ++ '{' :: (block ++ r)) := by
  refine leaves_iff.mpr fun u hu => ?_
  obtain rfl : withoutDuplicates .standard duplicateRounds _ = u := Except.ok.inj hu.acts
  rcases h.withoutDuplicates hfront duplicateRounds with hsame | ⟨kept, lost, rfl, hne, hkept⟩
  · exact hu.changes hsame
  · refine hkept.not_isBalanced hread hend hne (isBalanced_iff_costOf.mpr ?_)
    exact Nat.le_zero.mp (isBalanced_iff_costOf.mp hbalanced ▸ hu.cheap)

end Repair

end SnippetGate
