import SnippetGate.Proofs.Balance.Offset
import SnippetGate.Proofs.Balance.Stopping
import SnippetGate.Proofs.Text.Basic

/-!
# A scan is local

What a scan finds depends on the text from its start on alone. What it finds in a block depends on
the block alone, and what it finds up to a place depends on what it has read so far.
-/

namespace SnippetGate

variable {t : Text} {p e : Nat}

/-- A scan that starts in the middle of a text is the scan of the rest, at offsets and on lines
farther on. -/
theorem Scan.ofTextWith_drop {i : Nat} (hi : i ≤ t.length) (o : ScanOptions) :
    ofTextWith t i { o with limit := t.length } =
      (ofTextWith (t.drop i) 0 { o with limit := (t.drop i).length }).moved i
        ((t.take i).count '\n') := by
  have h := ofTextWith_append (t.take i) (t.drop i) o
  rwa [List.take_append_drop, List.length_take_of_le hi] at h

/-- The text of a block begins with its brace and ends with a closing bracket. -/
theorem Text.exists_slice_of_blockEnd? (hp : t[p]? = some '{') (he : t.blockEnd? p = some e) :
    p ≤ e ∧ (t.slice p e).length = e - p ∧
      ∃ q x, t.slice p e = '{' :: (q ++ [x]) ∧ (x = ')' ∨ x = ']' ∨ x = '}') := by
  obtain ⟨hlt, hbrace⟩ := List.getElem?_eq_some_iff.mp hp
  have hdrop : t.drop p = '{' :: t.drop (p + 1) := by rw [List.drop_eq_getElem_cons hlt, hbrace]
  obtain ⟨a, x, hr, rfl, hx⟩ := exists_of_blockEnd? hdrop he
  have hslice : t.slice p (p + a.length + 1) = a ++ [x] := by
    have hlength : p + a.length + 1 - p = (a ++ [x]).length := by
      rw [List.length_append, List.length_singleton]
      omega
    rw [List.append_cons] at hr
    rw [slice, List.drop_take, hr, hlength, List.take_left]
  rw [hslice]
  refine ⟨by omega, by rw [List.length_append, List.length_singleton]; omega, ?_⟩
  rw [hdrop] at hr
  cases a with
  | nil =>
    obtain ⟨rfl, -⟩ := List.cons.inj hr
    simp at hx
  | cons y q =>
    obtain ⟨rfl, -⟩ := List.cons.inj hr
    exact ⟨q, x, rfl, hx⟩

/-- A block ends at the same place of every text that it stands in. -/
theorem Text.blockEnd?_slice (hp : t[p]? = some '{') (he : t.blockEnd? p = some e)
    (before after : Text) :
    (before ++ (t.slice p e ++ after)).blockEnd? before.length =
      some (before.length + (e - p)) := by
  obtain ⟨hle, hlength, hblock⟩ := exists_slice_of_blockEnd? hp he
  have hp' : (t.take p).length = p :=
    List.length_take_of_le (List.getElem?_eq_some_iff.mp hp).1.le
  -- what stands before the block is taken away, what stands behind it is replaced
  have halone : (t.slice p e ++ t.drop e).blockEnd? 0 = some (e - p) := by
    have h := (blockScan_append (t.take p) (t.slice p e ++ t.drop e) 0).1
    rw [take_slice_drop t hle, hp', Nat.add_zero, he, eq_comm, Option.map_eq_some_iff] at h
    obtain ⟨j, hj, rfl⟩ := h
    rw [hj, Nat.add_sub_cancel]
  have hother : (t.slice p e ++ after).blockEnd? 0 = some (e - p) := by
    have h := @blockEnd?_of_block [] (t.slice p e) (t.drop e) after hblock
    simp only [List.nil_append, List.length_nil, hlength] at h
    exact h halone
  have h := (blockScan_append before (t.slice p e ++ after) 0).1
  rw [Nat.add_zero, hother] at h
  rw [h, Option.map_some, Nat.add_comm]

/-- A scan is local. Where it starts in a text, it sees the rest alone. A block ends at the same
place of every text that it stands in. And a scan that is to stop when all is closed finds what the
other one finds up to there, and stops where that one comes when all is closed again for the first
time. -/
theorem Scan.local_of_text :
    (∀ (t : Text) (i : Nat) (o : ScanOptions), i ≤ t.length →
      ofTextWith t i { o with limit := t.length } =
        (ofTextWith (t.drop i) 0 { o with limit := (t.drop i).length }).moved i
          ((t.take i).count '\n')) ∧
    (∀ (t before after : Text) (p e : Nat), t[p]? = some '{' → t.blockEnd? p = some e →
      (before ++ (t.slice p e ++ after)).blockEnd? before.length =
        some (before.length + (e - p))) ∧
    ∀ (t : Text) (i : Nat) (o : ScanOptions),
      (ofTextWith t i (o.stopping true)).issues <+: (ofTextWith t i (o.stopping false)).issues ∧
        ∀ j, (ofTextWith t i (o.stopping true)).closedAt? = some j ↔
          ∃ k, IsLeast {k | ClosedAgain t i (o.stopping false) k} k ∧
            (place t i (o.stopping false) k).cursor.pos = j :=
  ⟨fun _ _ o hi => ofTextWith_drop hi o, fun _ before after _ _ hp he =>
    Text.blockEnd?_slice hp he before after, ofTextWith_stopping⟩

/-- A block on the second line, with a string behind it that never ends. -/
def blockBelow : Text := "x\n\x7b(a)\x7d \x27b".toList

theorem Scan.local_of_text_blockBelow :
    ofTextWith blockBelow 2 { limit := blockBelow.length } =
        (ofTextWith (blockBelow.drop 2) 0 { limit := (blockBelow.drop 2).length }).moved 2 1 ∧
      Text.blockEnd? ("if ".toList ++ (blockBelow.slice 2 7 ++ [')'])) 3 = some 8 ∧
      ∃ k, IsLeast {k | ClosedAgain blockBelow 2 (ScanState.whole 10) k} k ∧
        (place blockBelow 2 (ScanState.whole 10) k).cursor.pos = 7 := by
  obtain ⟨hfrom, hblock, hstop⟩ := Scan.local_of_text
  have hlines : (blockBelow.take 2).count '\n' = 1 := by decide
  have hclosed : (ofTextWith blockBelow 2
      ((ScanState.whole 10).stopping true)).closedAt? = some 7 := by decide +kernel
  refine ⟨?_, ?_, ((hstop blockBelow 2 (ScanState.whole 10)).2 7).mp hclosed⟩
  · have h := hfrom blockBelow 2 (ScanState.whole 0) (by decide)
    rwa [hlines] at h
  · exact hblock blockBelow "if ".toList [')'] 2 7 (by decide) (by decide +kernel)

end SnippetGate
