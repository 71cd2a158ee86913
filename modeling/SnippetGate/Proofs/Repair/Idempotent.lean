import SnippetGate.Proofs.Repair.EntryHead
import SnippetGate.Proofs.Repair.Fences
import SnippetGate.Proofs.Repair.ReturnEnd
import SnippetGate.Proofs.Repair.Rewrites
import SnippetGate.Repair.Catalogue

/-!
# Rewriting once is enough

The repairs that rewrite the structure of a text do in one step all that they can do. Those that
replace pieces of a pattern leave no piece, the text that is cut after the mount call has nothing
but blanks there, and the closing tags that are put in are not missing any more.
-/

namespace SnippetGate.Repair

open Pattern Signature

variable {p : Pattern} {f : Match → Text} {t : Text}

/-- The repairs that rewrite the structure of a text, in the order of the catalogue. -/
def structural (cfg : Settings) : List Repair :=
  [stripFences] ++ [undeclaredSetAnswer, emptyElseClose].filterMap ofSignature? ++
    [stripTail cfg, collapseReturnClose, stripOrphanClosers, appendClosers cfg]

theorem replaceAll_idem (h : ∀ t, p.occursIn (p.replaceAll f t) = false) (t : Text) :
    p.replaceAll f (p.replaceAll f t) = p.replaceAll f t :=
  replaceAll_eq_self (h t)

/-- A text that is cut after the last mount call stays as it is: that call is still the last one. -/
theorem withoutTailJunk_idem (t : Text) :
    withoutTailJunk .standard (withoutTailJunk .standard t) = withoutTailJunk .standard t := by
  have hstays {t : Text} (h : tailJunk? .standard t = none) : withoutTailJunk .standard t = t := by
    unfold withoutTailJunk
    rw [h]
    cases Settings.standard.mountCall.findLast? t <;> rfl
  cases hjunk : tailJunk? .standard t with
  | none => rw [hstays hjunk, hstays hjunk]
  | some junk =>
    cases hm : Settings.standard.mountCall.findLast? t with
    | none => simp [tailJunk?, hm] at hjunk
    | some m =>
      refine hstays ?_
      have hf := finds_of_findLast? hm
      obtain ⟨p, w, b, s, ht, hw, hp, -, hb, hs⟩ := mount_of_finds hf
      obtain ⟨a, hsplit, -, hstop⟩ := hf.split
      have hcut : withoutTailJunk .standard t = p ++ (w ++ (b ++ (s ++ []))) := by
        have hsame : (a ++ m.text) ++ m.last.cursor.after =
            (p ++ (w ++ (b ++ (s ++ [])))) ++ m.last.cursor.after := by
          rw [List.append_assoc, ← hsplit]
          simpa using ht
        unfold withoutTailJunk
        rw [hm, hjunk, ← List.append_cancel_right hsame]
        dsimp only
        rw [hsplit, ← List.append_assoc, hstop, ← List.length_append, List.take_left]
      rw [hcut]
      obtain ⟨m', hm', hblank⟩ := exists_findLast?_of_terminal (e := []) hw hp hb hs nofun
      rw [tailJunk?, hm']
      simp [hblank]

/-- The calls of `setAnswer` are rewritten as long as the other setter is declared. -/
theorem action_undeclaredSetAnswer_idem {f : Text → Text} (h : undeclaredSetAnswer.action? = some f)
    (t : Text) : f (f t) = f t := by
  obtain rfl := Option.some.inj h
  dsimp only
  by_cases hdeclared : (declaredSetter "setUserAnswer").occursIn t = true
  · rw [if_pos hdeclared, replaceAll_eq_self (occursIn_setAnswerCall t), ite_self]
  · rw [if_neg hdeclared, if_neg hdeclared]

/-- Each of the repairs that rewrite the structure of a text does the same when done twice. -/
theorem action_structural_idem (r : Repair) (hr : r ∈ structural .standard) (t : Text) :
    ∃ u, r.action t = .ok u ∧ r.action u = .ok u := by
  have hidem {name : String} {tier : Tier} {detect : Text → Option Text} {f : Text → Text}
      (h : ∀ t, f (f t) = f t) : ∃ u, (sure name tier detect f).action t = .ok u ∧
        (sure name tier detect f).action u = .ok u :=
    ⟨f t, rfl, congrArg Except.ok (h t)⟩
  have hsignature {s : Signature} (hs : ofSignature? s = some r)
      (h : ∀ {f}, s.action? = some f → ∀ t, f (f t) = f t) :
      ∃ u, r.action t = .ok u ∧ r.action u = .ok u := by
    obtain ⟨f, hf, rfl⟩ := Option.map_eq_some_iff.mp hs
    exact ⟨f t, rfl, congrArg Except.ok (h hf t)⟩
  simp only [structural, List.mem_append, List.mem_filterMap, List.mem_cons, List.not_mem_nil,
    or_false] at hr
  rcases hr with (rfl | ⟨s, rfl | rfl, hs⟩) | rfl | rfl | rfl | rfl
  · exact hidem (replaceAll_idem occursIn_replaceAll_fenceLine)
  · exact hsignature hs action_undeclaredSetAnswer_idem
  · refine hsignature hs fun hf => ?_
    obtain rfl := Option.some.inj hf
    exact replaceAll_idem occursIn_emptyElse
  · exact hidem withoutTailJunk_idem
  · exact hidem (replaceAll_idem occursIn_doubledReturnClose)
  · exact hidem (replaceAll_idem occursIn_orphanClosers)
  · exact hidem withClosers_idem

theorem action_structural_idem_returnClose :
    let t := "<div>\n  );\n  );\n\x7d".toList
    let u := "<div>\n  );\n\x7d".toList
    collapseReturnClose ∈ structural .standard ∧ collapseReturnClose.action t = .ok u ∧
      collapseReturnClose.action u = .ok u := by
  intro t u
  have hmem : collapseReturnClose ∈ structural .standard := by simp [structural]
  have hacts : doubledReturnClose.replaceAll (·.group 1) t = u := by decide +kernel
  obtain ⟨v, hv, hagain⟩ := action_structural_idem collapseReturnClose hmem t
  obtain rfl : u = v := hacts.symm.trans (Except.ok.inj hv)
  exact ⟨hmem, hv, hagain⟩

end SnippetGate.Repair
