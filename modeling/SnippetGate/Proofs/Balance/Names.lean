import SnippetGate.Proofs.Balance.Tags
import SnippetGate.Proofs.Balance.Walk

/-!
# The names of open tags

Every tag that a scan has open stands in the text at the offset of its frame, with all of its name
and nothing that could go on with it.
-/

namespace SnippetGate

/-- The frame is no tag, or a fragment, or a tag that stands in the text with all of its name. -/
def Frame.Named (t : Text) (f : Frame) : Prop :=
  f.kind = .tag → f.token = [] ∨
    IsTagName f.token ∧ ∃ r, t.drop f.pos = '<' :: (f.token ++ r) ∧ EndsTagName r

theorem Frame.Named.of_same {t : Text} {f g : Frame} (h : g.Named t) (hk : g.kind = f.kind)
    (ht : g.token = f.token) (hp : g.pos = f.pos) : f.Named t := by
  rw [Frame.Named, hk, ht, hp] at h
  exact h

namespace Move

variable {t : Text} {s : ScanState}

/-- Only an opening tag brings a tag among the open frames. -/
def Names (t : Text) (s : ScanState) (m : Move) : Prop :=
  ∀ name phase n, m = openTag name phase n → (⟨.tag, name, s.cursor.pos, phase⟩ : Frame).Named t

theorem named_of_mem_splitAtTag? {name : Text} {fs inner outer : List Frame}
    (h : ScanState.splitAtTag? name fs = some (inner, outer)) : outer ⊆ fs := by
  induction fs generalizing inner with
  | nil => cases h
  | cons f fs ih =>
    rw [ScanState.splitAtTag?] at h
    split at h
    · cases h
    · split at h
      · obtain ⟨-, rfl⟩ := by simpa using h
        exact List.subset_cons_self f fs
      · obtain ⟨⟨i, o⟩, hio, ho⟩ := Option.map_eq_some_iff.mp h
        obtain ⟨-, rfl⟩ := by simpa using ho
        exact List.subset_cons_of_subset f (ih hio)

/-- A move that names its tag rightly keeps all open tags named. -/
theorem named_apply {m : Move} (hm : m.Names t s) (h : ∀ f ∈ s.stack.frames, f.Named t) :
    ∀ f ∈ (m.apply s).stack.frames, f.Named t := by
  have htail : ∀ f ∈ s.stack.frames.tail, f.Named t := fun f hf => h f (List.mem_of_mem_tail hf)
  cases m with
  | pass n => exact h
  | enter mode quote n => exact h
  | leave n => exact h
  | openBracket x => exact List.forall_mem_cons.mpr ⟨nofun, h⟩
  | openTag name phase n => exact List.forall_mem_cons.mpr ⟨hm name phase n rfl, h⟩
  | closeBracket opener x =>
    simp only [apply, ScanState.advance, ScanState.closeBracket]
    split
    · exact h
    · split <;> exact htail
  | closeTag name n =>
    simp only [apply, ScanState.advance, ScanState.closeTag]
    split
    · next hsplit => exact fun f hf => h f (named_of_mem_splitAtTag? hsplit hf)
    · split
      · exact h
      · split
        · exact htail
        · exact h
  | endTag n => exact htail
  | beginChildren =>
    simp only [apply, ScanState.advance, ScanState.beginChildren]
    split
    · exact h
    · next top fs hfs =>
      rw [hfs] at h
      exact List.forall_mem_cons.mpr
        ⟨(h top List.mem_cons_self).of_same rfl rfl rfl, (List.forall_mem_cons.mp h).2⟩
  | cutShort top => exact htail
  | stray top x => exact h

theorem opening_names {rest : Text} (ht : t.drop s.cursor.pos = '<' :: rest) :
    (opening rest).Names t s := by
  intro name phase n he
  unfold opening at he
  split at he
  · obtain ⟨rfl, rfl, rfl⟩ := openTag.inj he
    exact fun _ => .inl rfl
  · obtain ⟨rfl, rfl, rfl⟩ := openTag.inj he
    intro _
    cases hname : tagName? rest with
    | none => exact .inl rfl
    | some name =>
      obtain ⟨hok, r, rfl, hr⟩ := tagName?_eq_some_iff.mp hname
      exact .inr ⟨hok, r, ht, hr⟩

theorem closing_names (rest : Text) : (closing rest).Names t s := by
  intro name phase n he
  unfold closing at he
  split at he <;> cases he

theorem inMarkup_names {x : Char} {y : Option Char} {rest : Text}
    (ht : t.drop s.cursor.pos = x :: rest) : (inMarkup x y rest).Names t s := by
  unfold inMarkup
  split
  · nofun
  split
  · next hx =>
    split
    · exact closing_names _
    split
    · exact opening_names (hx ▸ ht)
    · nofun
  · nofun

theorem inAttrs_names {o : ScanOptions} {top : Frame} {x : Char} {y : Option Char} :
    (inAttrs o top x y).Names t s := by
  unfold inAttrs
  repeat' split
  all_goals nofun

theorem inScript_names {o : ScanOptions} {invited : Bool} {x : Char} {y : Option Char}
    {rest : Text} (ht : t.drop s.cursor.pos = x :: rest) :
    (inScript o invited x y rest).Names t s := by
  unfold inScript
  split
  · nofun
  split
  · nofun
  split
  · nofun
  split
  · nofun
  split
  · nofun
  split
  · next hx =>
    split
    · exact closing_names _
    split
    · exact opening_names (hx.2 ▸ ht)
    · nofun
  · nofun

theorem next_names {o : ScanOptions} {stack : BracketStack} {invited : Bool} {x : Char}
    {y : Option Char} {rest : Text} (ht : t.drop s.cursor.pos = x :: rest) :
    (next o stack invited x y rest).Names t s := by
  unfold next
  split
  · unfold inString
    repeat' split
    all_goals nofun
  · unfold inLineComment
    split <;> nofun
  · unfold inBlockComment
    split <;> nofun
  · unfold outside
    split
    · exact inScript_names ht
    split
    · split
      · exact inScript_names ht
      · exact inAttrs_names
      · exact inMarkup_names ht
    · exact inScript_names ht

end Move

/-- The tags that the scan of a text leaves open stand in it with their names. -/
theorem Scan.named_of_mem_unclosed {t : Text} {i : Nat} (hi : i ≤ t.length) {f : Frame}
    (hf : f ∈ (Scan.ofTextFrom t i).unclosed) : f.Named t := by
  have hin : ScanState.InWhole t.length (Scan.start t i) := by
    refine ⟨?_, rfl⟩
    simp only [Scan.start, Cursor.stop, Cursor.startingAt, List.length_drop]
    omega
  have key := (ScanState.run_whole
    (P := fun s => s.cursor.after = t.drop s.cursor.pos ∧ ∀ f ∈ s.stack.frames, f.Named t) hin
    ⟨rfl, List.forall_mem_nil _⟩ fun {s x rest} _ ha h => by
      refine ⟨?_, Move.named_apply (Move.next_names (h.1 ▸ ha)) h.2⟩
      rw [Move.cursor_apply]
      exact Cursor.after_skip_eq_drop h.1 _).1
  have hopen : f ∈ ((Scan.start t i).run (ScanState.whole t.length)).stack.frames := by
    rw [Scan.ofTextFrom, Scan.ofTextWith, ScanState.outcome] at hf
    split at hf
    · cases hf
    · exact List.mem_reverse.mp hf
  exact key.2 f hopen

end SnippetGate
