import SnippetGate.Proofs.Balance.Names
import SnippetGate.Proofs.Balance.Parallel
import SnippetGate.Proofs.Balance.ReadAt
import SnippetGate.Repair.TagPair

/-!
# The first issue about a closing tag

The first issue about a closing tag that a scan finds is found in a step that reads this tag, and no
such issue was found before. So when the text is mended there, nothing is left of the issue if the
scan of the mended text comes behind the tag to the same frames, and then finds the same.
-/

namespace SnippetGate

open ScanState

/-! ### What mending looks at -/

@[simp] theorem Issue.isAboutClosingTag_withOpened (i : Issue) (q : Nat) :
    (i.withOpened q).isAboutClosingTag = i.isAboutClosingTag := by
  rw [isAboutClosingTag, isAboutClosingTag, closer?_withOpened]

@[simp] theorem Issue.closerEnd?_withOpened (i : Issue) (q : Nat) :
    (i.withOpened q).closerEnd? = i.closerEnd? := by
  obtain ⟨cause, pos, stop⟩ := i
  cases cause with
  | mismatch f c deeper =>
    simp only [withOpened]
    split <;> rfl
  | _ => rfl

namespace Repair

/-- Mending does not ask how far an opener is read. -/
@[simp] theorem mendTag_withOpened (t : Text) (i : Issue) (q : Nat) :
    mendTag t (i.withOpened q) = mendTag t i := by
  obtain ⟨cause, pos, stop⟩ := i
  cases cause with
  | mismatch f c deeper =>
    simp only [Issue.withOpened]
    split <;> rfl
  | _ => rfl

end Repair

/-! ### What a closing tag is found to be -/

namespace Move

variable {s : ScanState} {name : Text} {n : Nat} {i : Issue} {later : List Issue}

/-- The first issue of a closing tag, and those that it finds later. -/
inductive FindsTag (s : ScanState) (name : Text) (n : Nat) : List Issue → Issue → Prop
  | deeper {f : Frame} {inner outer : List Frame} :
      splitAtTag? name s.stack.frames = some (f :: inner, outer) →
      FindsTag s name n (inner.map fun f =>
        (⟨.mismatch f (.tag name) true, s.cursor.pos, some (s.cursor.pos + n)⟩ : Issue)).reverse
          ⟨.mismatch f (.tag name) true, s.cursor.pos, some (s.cursor.pos + n)⟩
  | other {f : Frame} {fs : List Frame} :
      splitAtTag? name s.stack.frames = none → s.stack.frames = f :: fs → f.kind = .tag →
      FindsTag s name n []
        ⟨.mismatch f (.tag name) false, s.cursor.pos, some (s.cursor.pos + n)⟩
  | nothing :
      splitAtTag? name s.stack.frames = none → (∀ f ∈ s.stack.frames.head?, f.kind = .bracket) →
      FindsTag s name n [] ⟨.unmatched (.tag name), s.cursor.pos, some (s.cursor.pos + n)⟩

theorem findsTag_of_found (h : (closeTag name n).found s = later ++ [i]) :
    FindsTag s name n later i := by
  simp only [found, apply, ScanState.advance, ScanState.closeTag] at h
  split at h
  · next inner outer hsplit =>
    rw [List.append_nil] at h
    cases inner with
    | nil =>
      have := congrArg List.length h
      simp at this
    | cons f inner =>
      rw [List.map_cons, List.reverse_cons] at h
      obtain ⟨rfl, hi⟩ := List.append_inj' h rfl
      obtain rfl := (List.cons.inj hi).1
      exact .deeper hsplit
  · next hsplit =>
    have single {e : Issue} (h : [e] = later ++ [i]) : later = [] ∧ e = i := by
      have happ : [] ++ [e] = later ++ [i] := h
      obtain ⟨hlater, hi⟩ := List.append_inj' happ rfl
      exact ⟨hlater.symm, (List.cons.inj hi).1⟩
    split at h
    · next hf =>
      obtain ⟨rfl, rfl⟩ := single h
      exact .nothing hsplit (by simp [hf])
    · next top fs hf =>
      split at h
      · next hk =>
        obtain ⟨rfl, rfl⟩ := single h
        exact .other hsplit hf hk
      · next hk =>
        obtain ⟨rfl, rfl⟩ := single h
        refine .nothing hsplit fun f hm => ?_
        rw [hf] at hm
        obtain rfl : top = f := Option.some.inj hm
        cases hkind : top.kind with
        | bracket => rfl
        | tag => exact absurd hkind hk

theorem FindsTag.isAboutClosingTag (h : FindsTag s name n later i) :
    i.isAboutClosingTag = true := by
  cases h <;> rfl

end Move

/-! ### What is left of a scan -/

/-- The scan of `t'` finds what `keep` leaves of the issues that the scan of `t` finds, in the same
order, and leaves the same open, but for offsets and lines. -/
def Retains (keep : List Issue → List Issue) (t t' : Text) : Prop :=
  ∃ ρ, Aligns ρ t t' ∧ Scan.Corresponds ρ id
    { Scan.ofText t with issues := keep (Scan.ofText t).issues } (Scan.ofText t')

/-- The first issue about a closing tag, and what is left without it. -/
theorem issues_of_tagIssue? {t : Text} {i : Issue} (h : Repair.tagIssue? t = some i) :
    i.isAboutClosingTag = true ∧ ∃ l₁ l₂, (Scan.ofText t).issues = l₁ ++ i :: l₂ ∧
      (Scan.ofText t).issues.eraseP Issue.isAboutClosingTag = l₁ ++ l₂ := by
  obtain ⟨habout, l₁, l₂, hsplit, hbefore⟩ := List.find?_eq_some_iff_append.mp h
  refine ⟨habout, l₁, l₂, hsplit, ?_⟩
  rw [hsplit, List.eraseP_append_right _ fun e he => by simpa using hbefore e he,
    List.eraseP_cons_of_pos habout]

namespace Retains

variable {keep : List Issue → List Issue} {t t' t'' : Text} {i : Issue}

/-- Where nothing is left out, a text retains what it has. -/
theorem self (h : keep (Scan.ofText t).issues = (Scan.ofText t).issues) : Retains keep t t := by
  refine ⟨_, .refl t, ?_⟩
  rw [h]
  exact .refl _

/-- First one issue is left out, and then all others of its sort. -/
theorem trans_filter (h : Retains (·.eraseP Issue.isAboutClosingTag) t t')
    (h' : Retains (·.filter (!Issue.isAboutClosingTag ·)) t' t'') :
    Retains (·.filter (!Issue.isAboutClosingTag ·)) t t'' := by
  obtain ⟨ρ, hρ, hscan⟩ := h
  obtain ⟨σ, hσ, hscan'⟩ := h'
  have hleft (l : List Issue) : (l.eraseP Issue.isAboutClosingTag).filter
      (!Issue.isAboutClosingTag ·) = l.filter (!Issue.isAboutClosingTag ·) := by
    induction l with
    | nil => rfl
    | cons e l ih => cases he : e.isAboutClosingTag <;> simp [he, ih]
  have hothers : Scan.Corresponds ρ id
      { Scan.ofText t with
        issues := (Scan.ofText t).issues.filter (!Issue.isAboutClosingTag ·) }
      { Scan.ofText t' with
        issues := (Scan.ofText t').issues.filter (!Issue.isAboutClosingTag ·) } := by
    refine ⟨?_, hscan.unclosed⟩
    dsimp only
    rw [← hleft]
    exact List.rel_filter (fun i i' hi => by simp [hi.isAboutClosingTag]) hscan.issues
  exact ⟨_, hρ.trans hσ, hothers.trans hscan'⟩

/-- Where the first issue about a closing tag is left out, there is one issue less. -/
theorem length_succ (h : Retains (·.eraseP Issue.isAboutClosingTag) t t')
    (hi : Repair.tagIssue? t = some i) :
    (Scan.ofText t').issues.length + 1 = (Scan.ofText t).issues.length := by
  obtain ⟨-, l₁, l₂, hsplit, hleft⟩ := issues_of_tagIssue? hi
  obtain ⟨ρ, -, hscan⟩ := h
  have hlength := hscan.issues.length_eq
  dsimp only at hlength
  rw [← hlength, hleft, hsplit]
  simp [Nat.add_assoc]

/-- Where the first issue about a closing tag is left out, there is one less of its sort. -/
theorem countP_succ (h : Retains (·.eraseP Issue.isAboutClosingTag) t t')
    (hi : Repair.tagIssue? t = some i) :
    (Scan.ofText t').issues.countP Issue.isAboutClosingTag + 1 =
      (Scan.ofText t).issues.countP Issue.isAboutClosingTag := by
  obtain ⟨habout, l₁, l₂, hsplit, hleft⟩ := issues_of_tagIssue? hi
  obtain ⟨ρ, -, hscan⟩ := h
  have hsame := congrArg (List.countP id)
    (hscan.map_issues (F := Issue.isAboutClosingTag) fun _ _ hi => hi.isAboutClosingTag)
  dsimp only at hsame
  rw [List.countP_map, List.countP_map, Function.id_comp, hleft] at hsame
  rw [hsame, hsplit, List.countP_append, List.countP_append, List.countP_cons_of_pos habout]
  rfl

/-- The issues about closing tags that are left are of the kinds that were there. -/
theorem kind_of_mem {p : IssueKind → Prop} (h : Retains (·.eraseP Issue.isAboutClosingTag) t t')
    (hp : ∀ e ∈ (Scan.ofText t).issues, e.isAboutClosingTag = true → p e.kind) :
    ∀ e ∈ (Scan.ofText t').issues, e.isAboutClosingTag = true → p e.kind := by
  intro e he habout
  obtain ⟨ρ, -, hscan⟩ := h
  have hsame := hscan.map_issues (F := fun i => (i.isAboutClosingTag, i.kind))
    fun i i' hi => by rw [hi.isAboutClosingTag, hi.kind]
  have hpair := List.mem_map_of_mem (f := fun i => (i.isAboutClosingTag, i.kind)) he
  rw [hsame] at hpair
  obtain ⟨e', he', hpair⟩ := List.mem_map.mp hpair
  obtain ⟨habout', hkind⟩ := Prod.mk.inj hpair
  rw [← hkind]
  exact hp e' (List.mem_of_mem_eraseP he') (habout'.trans habout)

end Retains

/-! ### Where it is found -/

/-- The step in which the scan of a text finds its first issue about a closing tag, and then the
later ones that this tag brings about. -/
structure FirstFault (t : Text) (s : ScanState) (name : Text) (n : Nat) (later : List Issue)
    (i : Issue) : Prop where
  walks : Walks (whole t.length) (Scan.start t 0) s
  steps : ∃ x rest, s.cursor.after = x :: rest ∧ s.moveAt x rest = .closeTag name n
  clean : ∀ e ∈ s.issues, e.isAboutClosingTag = false
  finds : Move.FindsTag s name n later i
  issues : ((Move.closeTag name n).apply s).issues = later ++ i :: s.issues

/-- At the end of a text no issue about a closing tag is added. -/
theorem find?_outcome {t : Text} {s : ScanState} (h : s.closedAt? = none) :
    (s.outcome t).issues.find? Issue.isAboutClosingTag =
      s.issues.reverse.find? Issue.isAboutClosingTag := by
  have htext : (s.openText t).find? Issue.isAboutClosingTag = none := by
    unfold openText
    cases s.stack.mode <;> rfl
  have hframes : s.openFrames.find? Issue.isAboutClosingTag = none := by
    unfold openFrames
    cases s.stack.frames.getLast? <;> rfl
  simp [outcome, h, List.find?_append, htext, hframes]

/-- The first issue about a closing tag comes from a step that reads the tag. It is as it was found
there, but for how far its opener is read. -/
theorem exists_firstFault {t : Text} {i : Issue} (h : Repair.tagIssue? t = some i) :
    ∃ s name n later i₀, FirstFault t s name n later i₀ ∧
      ∀ {α : Type} (F : Issue → α), (∀ i q, F (i.withOpened q) = F i) → F i₀ = F i := by
  have hin := (inWhole_start t).walks (walks_run _ _)
  have hrun := walks_run (whole t.length) (Scan.start t 0)
  have hfind : (run (whole t.length) (Scan.start t 0)).issues.reverse.find?
      Issue.isAboutClosingTag = some i := by
    rw [← find?_outcome hin.closedAt?]
    exact h
  generalize run (whole t.length) (Scan.start t 0) = e at hin hrun hfind
  have he : ∃ j ∈ e.issues, j.isAboutClosingTag = true :=
    ⟨i, List.mem_reverse.mp (List.mem_of_find?_eq_some hfind), List.find?_some hfind⟩
  -- the walk comes to a first place that has found such an issue
  obtain ⟨s, v, hs, hnot, hst, hv, hve⟩ := hrun.exists_first
    (P := fun s => ∃ j ∈ s.issues, j.isAboutClosingTag = true) (by rintro ⟨j, hj, -⟩; cases hj) he
  have hclean : ∀ j ∈ s.issues, j.isAboutClosingTag = false := fun j hj => by
    by_contra hj'
    exact hnot ⟨j, hj, by simpa using hj'⟩
  have hsin := (inWhole_start t).walks hs
  obtain ⟨x, rest, ha, rfl⟩ := hsin.steps hst
  obtain ⟨j, hj, habout⟩ := hv
  rw [Move.issues_apply] at hj
  have hfound : j ∈ (s.moveAt x rest).found s := by
    refine (List.mem_append.mp hj).resolve_right fun hold => ?_
    obtain ⟨j', hj', rfl⟩ := List.mem_map.mp hold
    rcases Move.reread_cases s (s.moveAt x rest) with hid | ⟨q, hq⟩
    · rw [hid, id, hclean j' hj'] at habout
      cases habout
    · rw [hq, Issue.isAboutClosingTag_withOpened, hclean j' hj'] at habout
      cases habout
  obtain ⟨name, n, hmove⟩ := Move.exists_closeTag_of_found hfound habout
  rw [hmove] at hve hfound
  have hne : (Move.closeTag name n).found s ≠ [] := List.ne_nil_of_mem hfound
  obtain ⟨later, i₀, hlater⟩ : ∃ later i₀, (Move.closeTag name n).found s = later ++ [i₀] :=
    ⟨_, _, (List.dropLast_append_getLast hne).symm⟩
  have hfinds := Move.findsTag_of_found hlater
  have hissues : ((Move.closeTag name n).apply s).issues = later ++ i₀ :: s.issues := by
    have hread : (Move.closeTag name n).reread s = id := rfl
    rw [Move.issues_apply, hlater, hread, List.map_id, List.append_assoc, List.singleton_append]
  -- to the end of the walk it stays the first one
  obtain ⟨new, g, hg, hend⟩ := hve.exists_issues (hsin.apply _)
  have hi : i = g i₀ := by
    have habout' : (g i₀).isAboutClosingTag = true := by
      rw [hg Bool Issue.isAboutClosingTag Issue.isAboutClosingTag_withOpened]
      exact hfinds.isAboutClosingTag
    have hnone : (s.issues.map g).reverse.find? Issue.isAboutClosingTag = none := by
      rw [List.find?_eq_none]
      intro k hk
      obtain ⟨k', hk', rfl⟩ := List.mem_map.mp (List.mem_reverse.mp hk)
      rw [hg Bool Issue.isAboutClosingTag Issue.isAboutClosingTag_withOpened, hclean k' hk']
      nofun
    rw [hend, hissues, List.map_append, List.map_cons, List.reverse_append, List.reverse_append,
      List.reverse_cons, List.append_assoc, List.append_assoc, List.find?_append, hnone,
      Option.none_or, List.singleton_append, List.find?_cons_of_pos habout'] at hfind
    exact (Option.some.inj hfind).symm
  refine ⟨s, name, n, later, i₀, ⟨hs, ⟨x, rest, ha, hmove⟩, hclean, hfinds, hissues⟩, ?_⟩
  intro α F hF
  rw [hi]
  exact (hg α F hF i₀).symm

namespace FirstFault

variable {t : Text} {s : ScanState} {name : Text} {n : Nat} {later : List Issue} {i : Issue}

theorem inWhole (h : FirstFault t s name n later i) : InWhole t.length s :=
  (inWhole_start t).walks h.walks

/-- The closing tag stands in the text, and no attributes are being read there. -/
theorem reads (h : FirstFault t s name n later i) :
    (Move.closeTag name n).Reads (whole 0) t s.cursor.pos s.stack.frames := by
  obtain ⟨x, rest, ha, hm⟩ := h.steps
  exact hm ▸ InWhole.reads h.walks ha

theorem mode (h : FirstFault t s name n later i) : s.stack.mode = .normal := by
  obtain ⟨x, rest, -, hm⟩ := h.steps
  unfold moveAt Move.next at hm
  split at hm
  · unfold Move.inString at hm
    split at hm
    · cases hm
    · split at hm <;> cases hm
  · unfold Move.inLineComment at hm
    split at hm <;> cases hm
  · unfold Move.inBlockComment at hm
    split at hm <;> cases hm
  · assumption

/-- The text up to the closing tag, the tag, and the text behind it. -/
theorem exists_split (h : FirstFault t s name n later i) : ∃ pre closer post,
    t = pre ++ closer ++ post ∧ IsClosingTag name closer ∧ pre.length = s.cursor.pos ∧
      closer.length = n ∧ s.cursor.after = closer ++ post := by
  obtain ⟨x, rest, ha, hm⟩ := h.steps
  have hafter := after_eq_drop h.walks
  have hlt : s.cursor.pos < t.length := by
    by_contra hge
    rw [List.drop_eq_nil_of_le (Nat.le_of_not_lt hge), ha] at hafter
    cases hafter
  have hle : n ≤ (t.drop s.cursor.pos).length := by
    have hbound : (s.moveAt x rest).length ≤ rest.length + 1 := by
      refine Move.length_next_le (o := whole 0) (.inr ?_)
      rintro rfl
      unfold moveAt Move.next at hm
      rw [h.mode] at hm
      rw [Move.outside_of_plain (isPlain_of_isInert (x := '\\') (by decide) _ _ _)] at hm
      cases hm
    rw [hm] at hbound
    rw [← hafter, ha]
    exact hbound
  refine ⟨t.take s.cursor.pos, (t.drop s.cursor.pos).take n, (t.drop s.cursor.pos).drop n, ?_, ?_,
    List.length_take_of_le hlt.le, List.length_take_of_le hle, ?_⟩
  · rw [List.append_assoc, List.take_append_drop, List.take_append_drop]
  · have hr := h.reads.1
    rwa [Text.slice, List.drop_take, Nat.add_sub_cancel_left] at hr
  · rw [hafter, List.take_append_drop]

theorem walks_behind (h : FirstFault t s name n later i) :
    Walks (whole t.length) (Scan.start t 0) ((Move.closeTag name n).apply s) := by
  obtain ⟨x, rest, ha, hm⟩ := h.steps
  exact h.walks.tail (h.inWhole.steps_of_moveAt ha hm)

/-- The issue is the first that is left out. -/
theorem without_eq (h : FirstFault t s name n later i) :
    ((Move.closeTag name n).apply s).without Issue.isAboutClosingTag =
      { (Move.closeTag name n).apply s with issues := later ++ s.issues } := by
  have hkept : ((later ++ i :: s.issues).reverse.eraseP Issue.isAboutClosingTag).reverse =
      later ++ s.issues := by
    rw [List.reverse_append, List.reverse_cons, List.append_assoc,
      List.eraseP_append_right _ fun e he => by
        rw [h.clean e (List.mem_reverse.mp he)]
        nofun,
      List.singleton_append, List.eraseP_cons_of_pos h.finds.isAboutClosingTag,
      List.reverse_append, List.reverse_reverse, List.reverse_reverse]
  rw [ScanState.without, h.issues, hkept]

/-- If the scan of another text ends as from a place that goes on like one behind the closing tag,
it finds the same but for the issue. -/
theorem retains (h : FirstFault t s name n later i) {ρ : Nat → Nat → Prop} {t' k : Text}
    {v u : ScanState}
    (hv : Walks (whole t.length)
      { (Move.closeTag name n).apply s with issues := later ++ s.issues } v)
    (hu : InWhole t'.length u) (hscan : (run (whole t'.length) u).outcome t' = Scan.ofText t')
    (halign : Aligns ρ t t') (hρ : Relator.BiUnique ρ) (hpar : Parallel ρ id [] k v u) :
    Retains (·.eraseP Issue.isAboutClosingTag) t t' := by
  refine ⟨ρ, halign, ?_⟩
  rw [← h.without_eq] at hv
  have hin := h.inWhole.apply (.closeTag name n)
  have habout : ∃ e ∈ ((Move.closeTag name n).apply s).issues, e.isAboutClosingTag = true :=
    ⟨i, by rw [h.issues]; simp, h.finds.isAboutClosingTag⟩
  obtain ⟨hw, hend⟩ := (walks_run (whole t.length) _).without hin
    Issue.isAboutClosingTag_withOpened habout
  have hrun := hin.walks (walks_run (whole t.length) ((Move.closeTag name n).apply s))
  have hwithout : InWhole t.length
      (((Move.closeTag name n).apply s).without Issue.isAboutClosingTag) :=
    ⟨hin.stop, hin.closedAt?⟩
  have hlast := hwithout.run_eq_of_after hw hin.after_run
  have houtcome := hpar.outcome renames_id hρ (fun _ _ _ => rfl) (hwithout.walks hv) hu t t'
  rw [← run_eq_of_walks hv, hlast, outcome_without hrun.closedAt? hend,
    ← run_eq_of_walks h.walks_behind, hscan] at houtcome
  exact houtcome

end FirstFault

end SnippetGate
