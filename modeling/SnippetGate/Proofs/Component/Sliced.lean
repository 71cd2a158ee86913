import SnippetGate.Proofs.Balance.Anew
import SnippetGate.Proofs.Balance.Cutoff
import SnippetGate.Proofs.Component.Span
import SnippetGate.Proofs.Contract.Placement

/-!
# A component is as balanced as its block

A declaration without parameters and without a type is script with nothing open behind it, and so
are the separator and the mount call. So whatever is wrong with a component was wrong with its block
where it stood.
-/

namespace SnippetGate

open Pattern Grammar ScanState

/-! ### Plain declarations -/

/-- The declaration of the entry point up to its brace, without parameters and without a type. -/
def IsPlainHead (head : Text) : Prop :=
  ∃ b₁ b₂ b₃ b₄ : Text, (∀ z ∈ b₁ ++ (b₂ ++ (b₃ ++ b₄)), isBlank z = true) ∧
    head = "function".toList ++ (b₁ ++ ("GeneratedLesson".toList ++ (b₂ ++ (['('] ++ (b₃ ++
      ([')'] ++ b₄))))))

/-- The declaration of the entry point with its brace, without parameters and without a type. -/
def IsPlainOpening (w : Text) : Prop := ∃ head, IsPlainHead head ∧ w = head ++ ['{']

theorem IsPlainHead.not_mem {head : Text} (h : IsPlainHead head) {z : Char}
    (hb : isBlank z = false) (hz : z ∉ "functionGeneratedLesson()".toList) : z ∉ head := by
  obtain ⟨b₁, b₂, b₃, b₄, hblanks, rfl⟩ := h
  have hblank : z ∉ b₁ ++ (b₂ ++ (b₃ ++ b₄)) := fun hmem => by simp [hblanks z hmem] at hb
  have hword {u : Text} (hu : ∀ y ∈ u, y ∈ "functionGeneratedLesson()".toList) : z ∉ u :=
    fun hmem => hz (hu z hmem)
  simp only [List.mem_append, not_or] at hblank ⊢
  exact ⟨hword (by decide), hblank.1, hword (by decide), hblank.2.1, hword (by decide),
    hblank.2.2.1, hword (by decide), hblank.2.2.2⟩

theorem IsPlainHead.reads {head : Text} {c d : Cursor} (h : IsPlainHead head) (ho : c.Over head d) :
    Reads .script c d := by
  obtain ⟨b₁, b₂, b₃, b₄, hb, rfl⟩ := h
  simp only [List.forall_mem_append] at hb
  obtain ⟨hb₁, hb₂, hb₃, hb₄⟩ := hb
  obtain ⟨c₁, h₁, ho⟩ := ho.split
  obtain ⟨c₂, h₂, ho⟩ := ho.split
  obtain ⟨c₃, h₃, ho⟩ := ho.split
  obtain ⟨c₄, h₄, ho⟩ := ho.split
  obtain ⟨c₅, h₅, ho⟩ := ho.split
  obtain ⟨c₆, h₆, ho⟩ := ho.split
  obtain ⟨c₇, h₇, h₈⟩ := ho.split
  have hname := reads_inert (reads_blanks (reads_inert (.nil .script c) (by decide) h₁) hb₁ h₂)
    (by decide) h₃
  have hlist : Reads .script c₅ c₆ := reads_blanks (.nil .script c₅) hb₃ h₆
  exact reads_blanks ((reads_blanks hname hb₂ h₄).bracket (.inl ⟨rfl, rfl⟩) h₅ hlist h₇) hb₄ h₈

namespace ScanState

variable {head r : Text} {e : ScanState}

/-- The scan of a whole text that begins with a plain declaration goes on from the brace as the scan
that starts there. -/
theorem exists_walks_beside (hhead : IsPlainHead head)
    (hw : Walks (whole (head ++ '{' :: r).length) (intoBlock (head ++ '{' :: r) head.length) e) :
    ∃ e', Walks (whole (head ++ '{' :: r).length) (Scan.start (head ++ '{' :: r) 0) e' ∧
      Beside e e' := by
  obtain ⟨e', hw', he'⟩ := (beside_behindBrace head r).walks
    (Text.inWhole_intoBlock (drop_brace head r)) (inWhole_behindBrace head r) hw
  exact ⟨e', (walks_behindBrace (fun _ _ => hhead.reads) r).trans hw', he'⟩

end ScanState

namespace Component

variable {t rest : Text} {m : Match}

theorem isMount_mountExpression : IsMount Settings.standard.mountExpression :=
  ⟨[], [], [' '], [], by decide, by decide⟩

/-- The separator and the mount call are script. -/
theorem exists_reads_mount {c : Cursor}
    (hc : c.after = separator .standard rest ++ Settings.standard.canonicalMount) :
    ∃ d, Reads .script c d ∧ d.after = [] := by
  have ho : c.Over (separator .standard rest ++ Settings.standard.canonicalMount) _ :=
    Cursor.over_skip (r := []) (by rw [hc, List.append_nil])
  obtain ⟨d, h₁, h₂⟩ := ho.split
  have hafter : d.after = Settings.standard.canonicalMount :=
    List.append_cancel_left (h₁.after.symm.trans hc)
  have hlast : IsLastMount Settings.standard.canonicalMount :=
    ⟨Settings.standard.mountExpression, [], [';'], [], by simp [Settings.canonicalMount],
      isMount_mountExpression, nofun, .inr rfl, nofun⟩
  obtain ⟨e, he, hend⟩ := hlast.exists_reads (.inl rfl) hafter
  exact ⟨e, (reads_blanks (.nil .script c) (fun x => isBlank_of_mem_separator) h₁).trans he, hend⟩

/-- Of a component whose declaration is plain, a scan finds just what the scan of its block has
found where it stood. -/
theorem scan_of_span (hm : Settings.standard.entryOpening.search? t = some m)
    (hplain : IsPlainOpening m.text) (hmode : (ofText .standard t).mode = .span) :
    (t.blockScan (m.stop - 1)).issues =
        (Scan.ofText (ofText .standard t).text).issues.map (Issue.shift m.start) ∧
      (Scan.ofText (ofText .standard t).text).unclosed = [] ∧
      ((Scan.ofText (ofText .standard t).text).isBalanced = true ↔
        (t.blockScan (m.stop - 1)).issues = []) := by
  obtain ⟨m', before, head, block, rest, hs⟩ := exists_spans_of_mode hmode
  obtain rfl : m = m' := Option.some.inj (hm.symm.trans hs.found)
  have hhead : IsPlainHead head := by
    obtain ⟨head', hhead, he⟩ := hplain
    obtain rfl : head = head' := List.append_cancel_right (hs.opening.symm.trans he)
    exact hhead
  obtain ⟨hends, hissues⟩ := hs.ends_behind
  obtain ⟨e, hw, hframes, hmode', hafter, -, he⟩ := Text.exists_walksOpen_of_block
    (separator .standard rest ++ Settings.standard.canonicalMount) hs.bracket hends
  rw [hs.ofText_eq]
  obtain ⟨q, x, rfl, -⟩ := hs.bracket
  -- the scan of the component comes over the declaration to the brace and goes on beside the other
  obtain ⟨e', hw', hbeside⟩ := exists_walks_beside hhead hw.walks
  obtain ⟨d, hr, hd⟩ := exists_reads_mount (hbeside.after ▸ hafter)
  have hscan := ofText_eq_of_closed hw' (hbeside.stack ▸ hframes) (hbeside.stack ▸ hmode') hr hd
  have hfound : (Scan.ofText (head ++ ('{' :: (q ++ [x]) ++
      (separator .standard rest ++ Settings.standard.canonicalMount)))).issues =
        ((head ++ ('{' :: (q ++ [x]) ++ rest)).blockScan head.length).issues := by
    rw [← he, hbeside.issues]
    exact congrArg Scan.issues hscan
  refine ⟨?_, congrArg Scan.unclosed hscan, ?_⟩
  · rw [hfound, hissues]
  · rw [hissues, ← hfound, List.map_eq_nil_iff, Scan.isBalanced, List.isEmpty_iff]

/-- A component with a bracket closed by another, behind other code. -/
def crossedBlock : Text := "let a; function GeneratedLesson( )\x7b[)\x7d b".toList

theorem scan_of_span_crossed :
    ∃ m, Settings.standard.entryOpening.search? crossedBlock = some m ∧ IsPlainOpening m.text ∧
      (ofText .standard crossedBlock).mode = .span ∧
      (crossedBlock.blockScan (m.stop - 1)).issues =
        (Scan.ofText (ofText .standard crossedBlock).text).issues.map (Issue.shift m.start) ∧
      (Scan.ofText (ofText .standard crossedBlock).text).unclosed = [] ∧
      (Scan.ofText (ofText .standard crossedBlock).text).isBalanced = false := by
  have hfound : (Settings.standard.entryOpening.search? crossedBlock).map Match.text =
      some "function GeneratedLesson( )\x7b".toList := by decide +kernel
  obtain ⟨m, hm, htext⟩ := Option.map_eq_some_iff.mp hfound
  have hplain : IsPlainOpening m.text :=
    ⟨_, ⟨[' '], [], [' '], [], by decide, rfl⟩, htext⟩
  have hmode : (ofText .standard crossedBlock).mode = .span := by decide +kernel
  obtain ⟨hissues, hunclosed, -⟩ := scan_of_span hm hplain hmode
  exact ⟨m, hm, hplain, hmode, hissues, hunclosed, by decide +kernel⟩

end Component

end SnippetGate
