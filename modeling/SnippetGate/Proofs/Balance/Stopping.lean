import SnippetGate.Proofs.Balance.Anew
import SnippetGate.Proofs.Balance.Inside

/-!
# A scan that stops early

A scan that is to stop when all is closed goes the same way as the scan that is not, up to the first
place where nothing is open any more. What it has found by then is the beginning of what the other
scan finds: no later step touches an issue about frames that are closed.
-/

namespace SnippetGate

/-- The place after `k` steps of a scan, or the last one if there are fewer. -/
def Scan.place (t : Text) (i : Nat) (o : ScanOptions) (k : Nat) : ScanState :=
  (fun s => (ScanState.next? o s).getD s)^[k] (start t i)

/-- Nothing is open after `k` steps, and something was open before. -/
def Scan.ClosedAgain (t : Text) (i : Nat) (o : ScanOptions) (k : Nat) : Prop :=
  (place t i o k).stack.frames = [] ∧ ∃ l < k, (place t i o l).stack.frames ≠ []

namespace Scan

open ScanState

variable {o : ScanOptions} {t : Text} {i k : Nat} {s u : ScanState}

/-! ### The places of both scans -/

theorem place_succ (t : Text) (i : Nat) (o : ScanOptions) (k : Nat) :
    place t i o (k + 1) = (next? o (place t i o k)).getD (place t i o k) :=
  Function.iterate_succ_apply' ..

theorem walks_place (t : Text) (i : Nat) (o : ScanOptions) (k : Nat) :
    Walks o (start t i) (place t i o k) :=
  walks_iterate o _ k

/-- Every place of a walk is the one after some number of steps. -/
theorem exists_place_of_walks (h : Walks o (start t i) s) : ∃ k, place t i o k = s := by
  induction h with
  | refl => exact ⟨0, rfl⟩
  | tail _ hst ih =>
    obtain ⟨k, rfl⟩ := ih
    exact ⟨k + 1, by rw [place_succ, hst]; rfl⟩

/-- A scan that is not to stop does not. -/
theorem closedAt?_place (t : Text) (i : Nat) (o : ScanOptions) (k : Nat) :
    (place t i (o.stopping false) k).closedAt? = none := by
  refine (walks_place t i (o.stopping false) k).keeps (P := fun s => s.closedAt? = none)
    (fun {s u} hst hs => ?_) rfl
  obtain ⟨-, x, rest, -, rfl | rfl⟩ := hst.exists_move
  · rw [Move.closedAt?_apply, hs]
  · exact (Move.closedAt?_apply _ _).trans hs

/-- Until all is closed again, the scan that stops is at the same place. -/
theorem place_stopping (h : ∀ l ≤ k, ¬ ClosedAgain t i (o.stopping false) l) :
    place t i (o.stopping true) k = (place t i (o.stopping false) k).watching := by
  induction k with
  | zero => rfl
  | succ k ih =>
    rw [place_succ, place_succ, ih fun l hl => h l (hl.trans (Nat.le_succ k)),
      next?_watching (closedAt?_place t i o k)]
    have hagain := h (k + 1) le_rfl
    have hnone := closedAt?_place t i o (k + 1)
    rw [ClosedAgain, place_succ] at hagain
    rw [place_succ] at hnone
    cases hnext : next? (o.stopping false) (place t i (o.stopping false) k) with
    | none => rfl
    | some u =>
      rw [hnext] at hagain hnone
      dsimp only [Option.map_some, Option.getD_some] at hagain hnone ⊢
      split
      · rfl
      · next hopen =>
        exact watched_eq_watching hnone fun hf => hagain ⟨hf, k, Nat.lt_succ_self k, hopen⟩

/-- Where all is closed again for the first time, the scan that stops has stopped. -/
theorem place_stopping_of_isLeast (h : IsLeast {k | ClosedAgain t i (o.stopping false) k} k) :
    place t i (o.stopping true) k = (place t i (o.stopping false) k).watched := by
  obtain ⟨⟨hnil, l, hl, hopen⟩, hleast⟩ := h
  obtain ⟨m, rfl⟩ : ∃ m, k = m + 1 := ⟨k - 1, by omega⟩
  have hfirst : ∀ l ≤ m, ¬ ClosedAgain t i (o.stopping false) l := fun l hlm hl =>
    absurd (hleast hl) (Nat.not_le.mpr (Nat.lt_succ_of_le hlm))
  -- just before, something is still open
  have hm : (place t i (o.stopping false) m).stack.frames ≠ [] := by
    rcases Nat.lt_succ_iff_lt_or_eq.mp hl with hlt | rfl
    · exact fun hf => hfirst m le_rfl ⟨hf, l, hlt, hopen⟩
    · exact hopen
  rw [place_succ] at hnil
  rw [place_succ, place_succ, place_stopping hfirst, next?_watching (closedAt?_place t i o m)]
  cases hnext : next? (o.stopping false) (place t i (o.stopping false) m) with
  | none =>
    rw [hnext] at hnil
    exact absurd hnil hm
  | some u =>
    dsimp only [Option.map_some, Option.getD_some]
    rw [if_neg hm]

/-! ### What is found -/

/-- What was found before stays as it is, unless it is about the innermost frame. -/
theorem suffix_issues_apply {old : List Issue} (h : old <:+ s.issues)
    (hold : ∀ e ∈ old, ∀ top ∈ s.stack.frames.head?, e.withOpened top.pos = e) (m : Move) :
    old <:+ (m.apply s).issues := by
  have more (found : List Issue) : old <:+ found ++ s.issues := h.trans (List.suffix_append ..)
  cases m with
  | closeBracket opener x =>
    rcases closesBracket s opener x with ⟨-, -, -, hi⟩ | ⟨-, -, stop, hi⟩ | ⟨-, stop, hi⟩
    · exact hi ▸ h
    · exact hi ▸ more [_]
    · exact hi ▸ more [_]
  | closeTag name n =>
    rcases closesTag s name n with
      ⟨stop, -, -, -, -, hi⟩ | ⟨stop, -, -, -, hi⟩ | ⟨stop, -, hi⟩
    · exact hi ▸ more _
    · exact hi ▸ more [_]
    · exact hi ▸ more [_]
  | beginChildren =>
    simp only [Move.apply, advance, beginChildren]
    split
    · exact h
    · next top fs hf =>
      obtain ⟨found, he⟩ := h
      have hkept : old.map (Issue.withOpened top.pos) = old := by
        conv_rhs => rw [← List.map_id old]
        exact List.map_congr_left fun e he => hold e he top (by rw [hf]; rfl)
      exact ⟨found.map (Issue.withOpened top.pos), by rw [← he, List.map_append, hkept]⟩
  | cutShort top => exact more [_]
  | stray top x => exact more [_]
  | _ => exact h

/-- What has been found where nothing is open is the first that a scan finds. -/
theorem suffix_issues_of_walks (hs : Walks o (start t i) s) (hf : s.stack.frames = [])
    (hw : Walks o s u) : s.issues <:+ u.issues := by
  have key := hw.keeps (P := fun u => Walks o (start t i) u ∧ s.cursor.pos ≤ u.cursor.pos ∧
    (∀ f ∈ u.stack.frames, s.cursor.pos ≤ f.pos) ∧ s.issues <:+ u.issues)
    (fun {u v} hst ⟨hu, hpos, hframes, hsuffix⟩ => ?_)
    ⟨hs, le_rfl, by rw [hf]; exact List.forall_mem_nil _, List.suffix_rfl⟩
  · exact key.2.2.2
  obtain ⟨⟨x, rest, -, -, hchange⟩, -⟩ := (Walks.orderly hu).step hst
  obtain ⟨x', rest', -, -, hissues⟩ := hst.exists_apply
  refine ⟨hu.tail hst, hpos.trans hst.pos_le, fun g hg => ?_, ?_⟩
  · rcases same_or_pos_of_changes hchange g hg with hg' | ⟨f, hf', hgf⟩
    · exact hg'.symm ▸ hpos
    · exact hgf.2.2 ▸ hframes f hf'
  · rw [hissues]
    refine suffix_issues_apply hsuffix (fun e he top htop => ?_) _
    exact withOpened_of_mem_issues hs e he top.pos (hframes top (List.mem_of_mem_head? htop))

/-! ### The outcomes -/

/-- The outcome lists first what was found on the way. -/
theorem prefix_issues_outcome (t : Text) (s : ScanState) :
    s.issues.reverse <+: (s.outcome t).issues := by
  unfold outcome
  split
  · exact List.prefix_rfl
  · rw [List.append_assoc]
    exact List.prefix_append _ _

/-- A scan that stops ends where all is closed again for the first time, and has found by then what
the other scan finds first. -/
theorem ofTextWith_of_isLeast (h : IsLeast {k | ClosedAgain t i (o.stopping false) k} k) :
    (ofTextWith t i (o.stopping true)).closedAt? =
        some (place t i (o.stopping false) k).cursor.pos ∧
      (ofTextWith t i (o.stopping true)).issues <+:
        (ofTextWith t i (o.stopping false)).issues := by
  have hnil := h.1.1
  have hplace := place_stopping_of_isLeast h
  have hclosed : (place t i (o.stopping false) k).watched.closedAt? =
      some (place t i (o.stopping false) k).cursor.pos := by rw [watched, if_pos hnil]
  have hrun : run (o.stopping true) (start t i) = (place t i (o.stopping false) k).watched := by
    rw [run_eq_of_walks (walks_place t i _ k), hplace]
    exact run_eq_self (by rw [next?, hclosed]; exact if_pos (.inl rfl))
  have hwalk := walks_place t i (o.stopping false) k
  have hsuffix := suffix_issues_of_walks hwalk hnil (walks_run_of_walks hwalk)
  rw [ofTextWith, ofTextWith, hrun]
  refine ⟨?_, ?_⟩
  · rw [outcome, hclosed]
    rfl
  · rw [outcome, hclosed]
    exact (List.reverse_prefix.mpr hsuffix).trans (prefix_issues_outcome t _)

/-- If nothing is closed again, a scan that is to stop is the other one. -/
theorem ofTextWith_of_forall_not (h : ∀ k, ¬ ClosedAgain t i (o.stopping false) k) :
    (ofTextWith t i (o.stopping true)).closedAt? = none ∧
      (ofTextWith t i (o.stopping true)).issues = (ofTextWith t i (o.stopping false)).issues := by
  obtain ⟨k, hk⟩ := exists_place_of_walks (walks_run (o.stopping true) (start t i))
  have hend := next?_run (o.stopping true) (start t i)
  have hnone := closedAt?_place t i o k
  rw [← hk, place_stopping fun l _ => h l, next?_watching hnone, Option.map_eq_none_iff] at hend
  have hrun : run (o.stopping false) (start t i) = place t i (o.stopping false) k := by
    rw [run_eq_of_walks (walks_place t i _ k), run_eq_self hend]
  rw [ofTextWith, ofTextWith, hrun, ← hk, place_stopping fun l _ => h l]
  have hwatching : (place t i (o.stopping false) k).watching.closedAt? = none := hnone
  rw [outcome, outcome, hwatching, hnone]
  exact ⟨rfl, rfl⟩

/-- A scan that is to stop finds what the other one finds first. It stops where that one comes when
all is closed again for the first time. -/
theorem ofTextWith_stopping (t : Text) (i : Nat) (o : ScanOptions) :
    (ofTextWith t i (o.stopping true)).issues <+: (ofTextWith t i (o.stopping false)).issues ∧
      ∀ j, (ofTextWith t i (o.stopping true)).closedAt? = some j ↔
        ∃ k, IsLeast {k | ClosedAgain t i (o.stopping false) k} k ∧
          (place t i (o.stopping false) k).cursor.pos = j := by
  by_cases hagain : ∃ k, ClosedAgain t i (o.stopping false) k
  · classical
    have hleast : IsLeast {k | ClosedAgain t i (o.stopping false) k} (Nat.find hagain) :=
      ⟨Nat.find_spec hagain, fun l hl => Nat.find_min' hagain hl⟩
    obtain ⟨hclosed, hbegin⟩ := ofTextWith_of_isLeast hleast
    refine ⟨hbegin, fun j => ?_⟩
    rw [hclosed, Option.some.injEq]
    refine ⟨fun hj => ⟨_, hleast, hj⟩, ?_⟩
    rintro ⟨k, hk, rfl⟩
    rw [hleast.unique hk]
  · rw [not_exists] at hagain
    obtain ⟨hclosed, hsame⟩ := ofTextWith_of_forall_not hagain
    refine ⟨hsame ▸ List.prefix_rfl, fun j => ?_⟩
    rw [hclosed]
    exact iff_of_false nofun fun ⟨k, hk, _⟩ => hagain k hk.1

end Scan

end SnippetGate
