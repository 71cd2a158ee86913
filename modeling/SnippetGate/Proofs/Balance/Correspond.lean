import SnippetGate.Proofs.Balance.Comments
import SnippetGate.Proofs.Balance.Findings

/-!
# Scans that correspond

Where two texts go on alike, their scans go on alike, if they stand under the same frames there and
no `<` behind is told otherwise by what is before. The offsets need not be the same, nor the names
of tags that were opened before. So frames, issues and outcomes are compared up to a correspondence
of offsets and a renaming of tags.
-/

namespace SnippetGate

open ScanState

/-! ### Offsets that correspond -/

/-- Offsets of two texts that correspond come in the same order, and the same characters stand
there. -/
structure Aligns (ρ : Nat → Nat → Prop) (t t' : Text) : Prop where
  order : ∀ {x y x' y'}, ρ x y → ρ x' y' → (x < x' ↔ y < y')
  char : ∀ {x y}, ρ x y → t[x]? = t'[y]?

/-- How offsets correspond where `b` characters stand in place of `a` characters at offset `c`. -/
def Spliced (c a b x y : Nat) : Prop := x < c ∧ y = x ∨ c + a ≤ x ∧ y + a = x + b

theorem biUnique_spliced (c a b : Nat) : Relator.BiUnique (Spliced c a b) := by
  constructor
  · intro x x' y h h'
    unfold Spliced at h h'
    omega
  · intro x y y' h h'
    unfold Spliced at h h'
    omega

theorem aligns_spliced (p m m' q : Text) :
    Aligns (Spliced p.length m.length m'.length) (p ++ m ++ q) (p ++ m' ++ q) where
  order h h' := by
    unfold Spliced at h h'
    omega
  char {x y} h := by
    rcases h with ⟨hx, rfl⟩ | ⟨hx, hy⟩
    · rw [List.append_assoc, List.append_assoc, List.getElem?_append_left hx,
        List.getElem?_append_left hx]
    · rw [List.getElem?_append_right (by rw [List.length_append]; exact hx),
        List.getElem?_append_right (by rw [List.length_append]; omega), List.length_append,
        List.length_append]
      congr 1
      omega

theorem Aligns.refl (t : Text) : Aligns (· = ·) t t where
  order := by
    rintro x _ x' _ rfl rfl
    exact Iff.rfl
  char := by
    rintro x _ rfl
    rfl

theorem Aligns.trans {ρ σ : Nat → Nat → Prop} {t t' t'' : Text} (h : Aligns ρ t t')
    (h' : Aligns σ t' t'') : Aligns (Relation.Comp ρ σ) t t'' where
  order := by
    rintro x z x' z' ⟨y, hxy, hyz⟩ ⟨y', hxy', hyz'⟩
    exact (h.order hxy hxy').trans (h'.order hyz hyz')
  char := by
    rintro x z ⟨y, hxy, hyz⟩
    exact (h.char hxy).trans (h'.char hyz)

/-! ### Frames, issues and outcomes that correspond -/

/-- The same delimiter, but for its offset and its name. -/
structure Frame.Corresponds (ρ : Nat → Nat → Prop) (g : Text → Text) (f f' : Frame) : Prop where
  kind : f'.kind = f.kind
  token : f'.token = g f.token
  phase : f'.phase = f.phase
  pos : ρ f.pos f'.pos

/-- A closer with another name, if it is a closing tag. -/
def Closer.renamed (g : Text → Text) : Closer → Closer
  | bracket x => bracket x
  | tag name => tag (g name)

/-- The same cause, but for offsets, names and lines. -/
inductive Imbalance.Corresponds (ρ : Nat → Nat → Prop) (g : Text → Text) :
    Imbalance → Imbalance → Prop
  | unmatched {c c' : Closer} : c' = c.renamed g → Corresponds ρ g (.unmatched c) (.unmatched c')
  | mismatch {f f' : Frame} {c c' : Closer} {deeper : Bool} :
      f.Corresponds ρ g f' → c' = c.renamed g →
      Corresponds ρ g (.mismatch f c deeper) (.mismatch f' c' deeper)
  | unterminatedTag {f f' : Frame} :
      f.Corresponds ρ g f' → Corresponds ρ g (.unterminatedTag f) (.unterminatedTag f')
  | unterminatedString {quote : Text} {line line' : Nat} :
      Corresponds ρ g (.unterminatedString quote line) (.unterminatedString quote line')
  | unterminatedComment {line line' : Nat} :
      Corresponds ρ g (.unterminatedComment line) (.unterminatedComment line')
  | unclosed {fs fs' : List Frame} :
      List.Forall₂ (Frame.Corresponds ρ g) fs fs' → Corresponds ρ g (.unclosed fs) (.unclosed fs')

/-- The same issue, but for offsets, names and lines. Its closer is as long as before. -/
structure Issue.Corresponds (ρ : Nat → Nat → Prop) (g : Text → Text) (i i' : Issue) : Prop where
  cause : i.cause.Corresponds ρ g i'.cause
  pos : ρ i.pos i'.pos
  length : i'.closerEnd?.map (· - i'.pos) = i.closerEnd?.map (· - i.pos)

/-- The same outcome, but for offsets, names and lines. -/
structure Scan.Corresponds (ρ : Nat → Nat → Prop) (g : Text → Text) (r r' : Scan) : Prop where
  issues : List.Forall₂ (Issue.Corresponds ρ g) r.issues r'.issues
  unclosed : List.Forall₂ (Frame.Corresponds ρ g) r.unclosed r'.unclosed

section

variable {ρ σ : Nat → Nat → Prop} {g : Text → Text}

namespace Frame.Corresponds

variable {f f' f'' : Frame}

theorem context (h : f.Corresponds ρ g f') : f'.context = f.context := by
  rw [Frame.context, Frame.context, h.kind, h.phase]

theorem isOpening (h : f.Corresponds ρ g f') : f'.isOpening = f.isOpening := by
  rw [Frame.isOpening, Frame.isOpening, h.kind, h.phase]

theorem children (h : f.Corresponds ρ g f') :
    Frame.Corresponds ρ g { f with phase := .children } { f' with phase := .children } :=
  ⟨h.kind, h.token, rfl, h.pos⟩

theorem refl {f : Frame} (h : ρ f.pos f.pos) : f.Corresponds ρ id f := ⟨rfl, rfl, rfl, h⟩

theorem trans (h : f.Corresponds ρ id f') (h' : f'.Corresponds σ id f'') :
    f.Corresponds (Relation.Comp ρ σ) id f'' :=
  ⟨h'.kind.trans h.kind, h'.token.trans h.token, h'.phase.trans h.phase, f'.pos, h.pos, h'.pos⟩

end Frame.Corresponds

theorem Closer.renamed_id (c : Closer) : c.renamed id = c := by cases c <;> rfl

/-- One frame after the other corresponds by the first and then by the second correspondence. -/
theorem forall₂_frames_trans {fs fs' fs'' : List Frame}
    (h : List.Forall₂ (Frame.Corresponds ρ id) fs fs')
    (h' : List.Forall₂ (Frame.Corresponds σ id) fs' fs'') :
    List.Forall₂ (Frame.Corresponds (Relation.Comp ρ σ) id) fs fs'' := by
  induction h generalizing fs'' with
  | nil =>
    cases h'
    exact .nil
  | cons hf _ ih =>
    cases h' with
    | cons hf' h' => exact .cons (hf.trans hf') (ih h')

namespace Issue.Corresponds

variable {i i' i'' : Issue} {f f' : Frame} {c c' : Closer} {deeper : Bool} {p p' n : Nat}

theorem mismatch (hf : f.Corresponds ρ g f') (hc : c' = c.renamed g) (hp : ρ p p') (n : Nat) :
    Issue.Corresponds ρ g ⟨.mismatch f c deeper, p, some (p + n)⟩
      ⟨.mismatch f' c' deeper, p', some (p' + n)⟩ :=
  ⟨.mismatch hf hc, hp, by simp⟩

theorem unmatched (hc : c' = c.renamed g) (hp : ρ p p') (n : Nat) :
    Issue.Corresponds ρ g ⟨.unmatched c, p, some (p + n)⟩ ⟨.unmatched c', p', some (p' + n)⟩ :=
  ⟨.unmatched hc, hp, by simp⟩

theorem kind (h : i.Corresponds ρ g i') : i'.kind = i.kind := by
  have hc := h.cause
  unfold Issue.kind
  generalize i.cause = cause at hc
  generalize i'.cause = cause' at hc
  cases hc <;> rfl

theorem isAboutClosingTag (h : i.Corresponds ρ g i') :
    i'.isAboutClosingTag = i.isAboutClosingTag := by
  have hrenamed (c : Closer) : (c.renamed g).isTag = c.isTag := by cases c <;> rfl
  have hcause := h.cause
  unfold Issue.isAboutClosingTag Issue.closer?
  generalize i.cause = cause at hcause
  generalize i'.cause = cause' at hcause
  cases hcause with
  | unmatched hc => simp [hc, hrenamed]
  | mismatch _ hc => simp [hc, hrenamed]
  | _ => rfl

/-- An issue corresponds to itself if the offsets that it tells of do. -/
theorem refl (hpos : ρ i.pos i.pos) (hopener : ∀ f ∈ i.opener?, ρ f.pos f.pos)
    (hopen : ∀ fs, i.cause = .unclosed fs → ∀ f ∈ fs, ρ f.pos f.pos) : i.Corresponds ρ id i := by
  obtain ⟨cause, pos, stop⟩ := i
  refine ⟨?_, hpos, rfl⟩
  cases cause with
  | unmatched c => exact .unmatched c.renamed_id.symm
  | mismatch f c deeper => exact .mismatch (.refl (hopener f rfl)) c.renamed_id.symm
  | unterminatedTag f => exact .unterminatedTag (.refl (hopener f rfl))
  | unterminatedString quote line => exact .unterminatedString
  | unterminatedComment line => exact .unterminatedComment
  | unclosed fs => exact .unclosed (List.forall₂_same.mpr fun f hf => .refl (hopen fs rfl f hf))

/-- What stands before a place corresponds to itself if all offsets before it do. -/
theorem refl_of_before (hρ : ∀ x < p, ρ x x) (h : i.Before p) : i.Corresponds ρ id i :=
  .refl (hρ _ h.pos) (fun f hf => hρ _ (h.opener f hf))
    fun _ hc => absurd (by rw [Issue.kind, hc]) h.kind

theorem trans (h : i.Corresponds ρ id i') (h' : i'.Corresponds σ id i'') :
    i.Corresponds (Relation.Comp ρ σ) id i'' := by
  obtain ⟨cause, pos, stop⟩ := i
  obtain ⟨cause', pos', stop'⟩ := i'
  obtain ⟨cause'', pos'', stop''⟩ := i''
  refine ⟨?_, ⟨pos', h.pos, h'.pos⟩, h'.length.trans h.length⟩
  have hc := h.cause
  have hc' := h'.cause
  dsimp only at hc hc' ⊢
  cases hc with
  | unmatched he =>
    cases hc' with
    | unmatched he' => exact .unmatched (by rw [he', he, Closer.renamed_id])
  | mismatch hf he =>
    cases hc' with
    | mismatch hf' he' => exact .mismatch (hf.trans hf') (by rw [he', he, Closer.renamed_id])
  | unterminatedTag hf =>
    cases hc' with
    | unterminatedTag hf' => exact .unterminatedTag (hf.trans hf')
  | unterminatedString =>
    cases hc'
    exact .unterminatedString
  | unterminatedComment =>
    cases hc'
    exact .unterminatedComment
  | unclosed hfs =>
    cases hc' with
    | unclosed hfs' => exact .unclosed (forall₂_frames_trans hfs hfs')

/-- Corresponding openers are read farther together. -/
theorem withOpened (hρ : Relator.BiUnique ρ) (h : i.Corresponds ρ g i') (hp : ρ p p') :
    (i.withOpened p).Corresponds ρ g (i'.withOpened p') := by
  obtain ⟨cause, pos, stop⟩ := i
  obtain ⟨cause', pos', stop'⟩ := i'
  have hc := h.cause
  dsimp only at hc
  cases hc with
  | @mismatch f f' c c' deeper hf he =>
    have hsame : (f'.pos == p') = (f.pos == p) := by
      have hiff : f.pos = p ↔ f'.pos = p' := Relator.rel_eq hρ hf.pos hp
      rw [Bool.eq_iff_iff, beq_iff_eq, beq_iff_eq, hiff]
    simp only [Issue.withOpened, hf.isOpening, hsame]
    split
    · exact ⟨.mismatch hf.children he, h.pos, h.length⟩
    · exact h
  | _ => exact h

end Issue.Corresponds

namespace Scan.Corresponds

variable {r r' r'' : Scan}

theorem refl (r : Scan) : r.Corresponds (· = ·) id r :=
  ⟨List.forall₂_same.mpr fun _ _ => .refl rfl (fun _ _ => rfl) fun _ _ _ _ => rfl,
    List.forall₂_same.mpr fun _ _ => .refl rfl⟩

theorem trans (h : r.Corresponds ρ id r') (h' : r'.Corresponds σ id r'') :
    r.Corresponds (Relation.Comp ρ σ) id r'' := by
  refine ⟨?_, forall₂_frames_trans h.unclosed h'.unclosed⟩
  have hi := h.issues
  have hi' := h'.issues
  generalize r.issues = l at hi
  generalize r'.issues = l' at hi hi'
  generalize r''.issues = l'' at hi'
  induction hi generalizing l'' with
  | nil =>
    cases hi'
    exact .nil
  | cons hf _ ih =>
    cases hi' with
    | cons hf' hi' => exact .cons (hf.trans hf') (ih _ hi')

/-- What corresponding issues have in common is the same in order. -/
theorem map_issues {α : Type} {F : Issue → α} (h : r.Corresponds ρ g r')
    (hF : ∀ i i' : Issue, i.Corresponds ρ g i' → F i' = F i) :
    r'.issues.map F = r.issues.map F := by
  have hi := h.issues
  generalize r.issues = l at hi
  generalize r'.issues = l' at hi
  induction hi with
  | nil => rfl
  | cons hf _ ih => rw [List.map_cons, List.map_cons, hF _ _ hf, ih]

/-- A scan without issues has none that correspond to others. -/
theorem isBalanced (h : r.Corresponds ρ g r') : r'.isBalanced = r.isBalanced := by
  have hi := h.issues
  unfold Scan.isBalanced
  generalize r.issues = l at hi
  generalize r'.issues = l' at hi
  cases hi <;> rfl

end Scan.Corresponds

end

/-! ### Places that correspond -/

/-- A renaming of tags that a scan takes no notice of: it keeps names apart, void elements void, and
leaves brackets and fragments alone. -/
structure Renames (g : Text → Text) : Prop where
  injective : Function.Injective g
  isVoid : ∀ name, isVoid (g name) = isVoid name
  bracket : ∀ x, x = '(' ∨ x = '[' ∨ x = '{' → g [x] = [x]
  fragment : g [] = []

theorem renames_id : Renames id := ⟨Function.injective_id, fun _ => rfl, fun _ _ => rfl, rfl⟩

namespace ScanState

/-- Places of two walks under the same frames and in the same string or comment, where the same was
found, but for offsets, names and lines. -/
structure Corresponds (ρ : Nat → Nat → Prop) (g : Text → Text) (s u : ScanState) : Prop where
  frames : List.Forall₂ (Frame.Corresponds ρ g) s.stack.frames u.stack.frames
  mode : u.stack.mode = s.stack.mode
  quote : u.stack.quote = s.stack.quote
  begun : s.stack.mode ≠ .normal →
    ∃ a b, s.stack.modeStart = some a ∧ u.stack.modeStart = some b ∧ ρ a b
  issues : List.Forall₂ (Issue.Corresponds ρ g) s.issues u.issues

/-- The tags that a closing tag closes correspond. -/
theorem splitAtTag?_of_forall₂ {ρ : Nat → Nat → Prop} {g : Text → Text} {name : Text}
    {fs fs' : List Frame} (hg : Function.Injective g) (hname : g name = name)
    (h : List.Forall₂ (Frame.Corresponds ρ g) fs fs') :
    Option.Rel (fun p p' => List.Forall₂ (Frame.Corresponds ρ g) p.1 p'.1 ∧
      List.Forall₂ (Frame.Corresponds ρ g) p.2 p'.2) (splitAtTag? name fs)
        (splitAtTag? name fs') := by
  induction h with
  | nil => exact .none
  | @cons f f' fs fs' hf hfs ih =>
    have htoken : f'.token = name ↔ f.token = name := by
      rw [hf.token]
      conv_lhs => rw [← hname]
      exact hg.eq_iff
    rw [splitAtTag?, splitAtTag?, hf.kind]
    simp only [htoken]
    split
    · exact .none
    split
    · exact .some ⟨.nil, hfs⟩
    · generalize splitAtTag? name fs = p at ih
      generalize splitAtTag? name fs' = p' at ih
      cases ih with
      | none => exact .none
      | some hp => exact .some ⟨.cons hf hp.1, hp.2⟩

namespace Corresponds

variable {ρ : Nat → Nat → Prop} {g : Text → Text} {s u : ScanState} {f f' : Frame} {i i' : Issue}

theorem advance (h : Corresponds ρ g s u) (n n' : Nat) :
    Corresponds ρ g (s.advance n) (u.advance n') :=
  { h with }

theorem push (h : Corresponds ρ g s u) (hf : f.Corresponds ρ g f') :
    Corresponds ρ g (s.push f) (u.push f') :=
  { h with frames := .cons hf h.frames }

theorem pop (h : Corresponds ρ g s u) : Corresponds ρ g s.pop u.pop := by
  refine { h with frames := ?_ }
  have hf := h.frames
  simp only [ScanState.pop, BracketStack.pop]
  generalize s.stack.frames = fs at hf
  generalize u.stack.frames = fs' at hf
  cases hf with
  | nil => exact .nil
  | cons _ hfs => exact hfs

theorem report (h : Corresponds ρ g s u) (hi : i.Corresponds ρ g i') :
    Corresponds ρ g (s.report i) (u.report i') :=
  { h with issues := .cons hi h.issues }

theorem enter (h : Corresponds ρ g s u) (hpos : ρ s.cursor.pos u.cursor.pos) (mode : Mode)
    (quote : Text) : Corresponds ρ g (s.enter mode quote) (u.enter mode quote) :=
  { h with
    mode := rfl
    quote := rfl
    begun := fun _ => ⟨_, _, rfl, rfl, hpos⟩ }

theorem leave (h : Corresponds ρ g s u) : Corresponds ρ g s.leave u.leave :=
  { h with
    mode := rfl
    quote := rfl
    begun := fun hm => absurd rfl hm }

theorem closeBracket (h : Corresponds ρ g s u) (hg : Function.Injective g)
    (hpos : ρ s.cursor.pos u.cursor.pos) {opener x : Char} (ho : g [opener] = [opener]) :
    Corresponds ρ g (s.closeBracket opener x) (u.closeBracket opener x) := by
  have hf := h.frames
  unfold ScanState.closeBracket
  generalize s.stack.frames = fs at hf
  generalize u.stack.frames = fs' at hf
  cases hf with
  | nil => exact h.report (.unmatched rfl hpos 1)
  | @cons top top' _ _ htop _ =>
    have htoken : top'.token = [opener] ↔ top.token = [opener] := by
      rw [htop.token]
      conv_lhs => rw [← ho]
      exact hg.eq_iff
    simp only [htop.kind, htoken]
    split
    · exact h.pop
    · exact (h.report (.mismatch htop rfl hpos 1)).pop

theorem closeTag (h : Corresponds ρ g s u) (hg : Function.Injective g)
    (hpos : ρ s.cursor.pos u.cursor.pos) {name : Text} (hname : g name = name) (n : Nat) :
    Corresponds ρ g (s.closeTag name (s.cursor.pos + n)) (u.closeTag name (u.cursor.pos + n)) := by
  have hcloser : Closer.tag name = (Closer.tag name).renamed g := by rw [Closer.renamed, hname]
  have hf := h.frames
  have hsplit := splitAtTag?_of_forall₂ hg hname hf
  unfold ScanState.closeTag
  generalize splitAtTag? name s.stack.frames = p at hsplit
  generalize splitAtTag? name u.stack.frames = p' at hsplit
  cases hsplit with
  | @some p p' hp =>
    obtain ⟨hinner, houter⟩ := hp
    refine { h with frames := houter, issues := ?_ }
    refine List.rel_append (List.rel_reverse ?_) h.issues
    refine List.rel_map (fun f f' hf => ?_) hinner
    exact .mismatch hf hcloser hpos n
  | none =>
    dsimp only
    generalize s.stack.frames = fs at hf
    generalize u.stack.frames = fs' at hf
    cases hf with
    | nil => exact h.report (.unmatched hcloser hpos n)
    | @cons top top' _ _ htop _ =>
      simp only [htop.kind]
      split
      · exact (h.report (.mismatch htop hcloser hpos n)).pop
      · exact h.report (.unmatched hcloser hpos n)

theorem beginChildren (h : Corresponds ρ g s u) (hρ : Relator.BiUnique ρ) :
    Corresponds ρ g s.beginChildren u.beginChildren := by
  have hf := h.frames
  unfold ScanState.beginChildren
  generalize s.stack.frames = fs at hf
  generalize u.stack.frames = fs' at hf
  cases hf with
  | nil => exact h
  | @cons top top' _ _ htop hfs =>
    refine { h with frames := .cons htop.children hfs, issues := ?_ }
    exact List.rel_map (fun i i' hi => hi.withOpened hρ htop.pos) h.issues

end Corresponds

end ScanState

/-! ### Moves that correspond -/

namespace Move

/-- The renaming does not touch what a move reads, and the move does not tell of a frame. -/
def IsFixed (g : Text → Text) : Move → Prop
  | openBracket x => g [x] = [x]
  | openTag name _ _ => g name = name
  | closeBracket opener _ => g [opener] = [opener]
  | closeTag name _ => g name = name
  | cutShort _ => False
  | stray _ _ => False
  | _ => True

/-- The same move, but for the frame that it tells of. -/
inductive Corresponds (ρ : Nat → Nat → Prop) (g : Text → Text) : Move → Move → Prop
  | same {m : Move} : m.IsFixed g → Corresponds ρ g m m
  | cutShort {top top' : Frame} :
      top.Corresponds ρ g top' → Corresponds ρ g (.cutShort top) (.cutShort top')
  | stray {top top' : Frame} {x : Char} :
      top.Corresponds ρ g top' → Corresponds ρ g (.stray top x) (.stray top' x)

variable {ρ : Nat → Nat → Prop} {g : Text → Text} {s u : ScanState} {m m' : Move} {x : Char}
  {y : Option Char} {rest : Text}

theorem Corresponds.length_eq (h : m.Corresponds ρ g m') : m'.length = m.length := by
  cases h <;> rfl

/-- Corresponding moves lead to corresponding places. -/
theorem Corresponds.apply (hm : m.Corresponds ρ g m') (h : s.Corresponds ρ g u)
    (hg : Function.Injective g) (hρ : Relator.BiUnique ρ) (hpos : ρ s.cursor.pos u.cursor.pos) :
    (m.apply s).Corresponds ρ g (m'.apply u) := by
  cases hm with
  | @cutShort top top' htop =>
    have hi : Issue.Corresponds ρ g ⟨.unterminatedTag top, top.pos, none⟩
        ⟨.unterminatedTag top', top'.pos, none⟩ := ⟨.unterminatedTag htop, htop.pos, rfl⟩
    exact (h.report hi).pop
  | stray htop => exact (h.report (.mismatch htop rfl hpos 1)).advance 1 1
  | same hfix =>
    cases m with
    | pass n => exact h.advance n n
    | enter mode quote n => exact (h.enter hpos mode quote).advance n n
    | leave n => exact h.leave.advance n n
    | openBracket x =>
      have hf : (Frame.bracket x s.cursor.pos).Corresponds ρ g (.bracket x u.cursor.pos) :=
        ⟨rfl, hfix.symm, rfl, hpos⟩
      exact (h.push hf).advance 1 1
    | openTag name phase n =>
      have hf : Frame.Corresponds ρ g ⟨.tag, name, s.cursor.pos, phase⟩
          ⟨.tag, name, u.cursor.pos, phase⟩ := ⟨rfl, hfix.symm, rfl, hpos⟩
      exact (h.push hf).advance n n
    | closeBracket opener x => exact (h.closeBracket hg hpos hfix).advance 1 1
    | closeTag name n => exact (h.closeTag hg hpos hfix n).advance n n
    | endTag n => exact h.pop.advance n n
    | beginChildren => exact (h.beginChildren hρ).advance 1 1
    | cutShort top => exact hfix.elim
    | stray top x => exact hfix.elim

/-! ### Decisions that correspond -/

/-- The renaming leaves the names alone that are written in a text. -/
def FixesNames (g : Text → Text) (t : Text) : Prop :=
  ∀ name, IsTagName name → name <:+: t → g name = name

theorem FixesNames.of_suffix {t t' : Text} (h : FixesNames g t) (hs : t' <:+ t) :
    FixesNames g t' := fun name hn hi => h name hn (hi.trans hs.isInfix)

theorem isFixed_opening (hg : Renames g) (h : FixesNames g rest)
    (ho : rest.head? = some '>' ∨ (tagName? rest).isSome = true) : (opening rest).IsFixed g := by
  unfold opening
  split
  · exact hg.fragment
  · next hgt =>
    obtain ⟨name, hname⟩ := Option.isSome_iff_exists.mp (ho.resolve_left hgt)
    obtain ⟨hn, r, rfl, -⟩ := tagName?_eq_some_iff.mp hname
    rw [hname]
    exact h name hn (List.prefix_append name r).isInfix

theorem isFixed_closing (hg : Renames g) (h : FixesNames g rest) : (closing rest).IsFixed g := by
  unfold closing
  split
  · next name n hn =>
    obtain ⟨piece, r, ⟨hok, b₁, b₂, -, -, rfl⟩, rfl, -⟩ := closingTagRest?_eq_some_iff.mp hn
    rcases hok with rfl | hname
    · exact hg.fragment
    · exact h name hname ⟨b₁, b₂ ++ ['>'] ++ r, by simp⟩
  · trivial

theorem isFixed_inMarkup (hg : Renames g) (h : FixesNames g rest) :
    (inMarkup x rest.head? rest).IsFixed g := by
  unfold inMarkup
  split
  · next hx =>
    subst hx
    exact hg.bracket _ (.inr (.inr rfl))
  split
  · split
    · exact isFixed_closing hg (h.of_suffix (List.tail_suffix rest))
    split
    · next ho => exact isFixed_opening hg h ho
    · trivial
  · trivial

theorem isFixed_inScript {b : Bool} (hg : Renames g) (h : FixesNames g rest) :
    (inScript (whole 0) b x rest.head? rest).IsFixed g := by
  unfold inScript
  split
  · trivial
  split
  · trivial
  split
  · trivial
  split
  · next hx => exact hg.bracket x (isOpener_whole x |>.mp hx)
  split
  · next opener ho =>
    rw [openerOf?_whole] at ho
    refine hg.bracket opener ?_
    split at ho
    · exact .inr (.inr (Option.some.inj ho).symm)
    split at ho
    · exact .inr (.inl (Option.some.inj ho).symm)
    split at ho
    · exact .inl (Option.some.inj ho).symm
    · cases ho
  split
  · split
    · exact isFixed_closing hg (h.of_suffix (List.tail_suffix rest))
    split
    · next ho => exact isFixed_opening hg h ho.1
    · trivial
  · trivial

/-- What stands before a character matters only if that is a `<` and a tag may begin there. -/
theorem inScript_congr {b b' : Bool}
    (hb : x = '<' → (rest.head? = some '>' ∨ (tagName? rest).isSome = true) → b' = b) :
    inScript (whole 0) b' x rest.head? rest = inScript (whole 0) b x rest.head? rest := by
  unfold inScript
  cases (whole 0).openerOf? x with
  | some opener => rfl
  | none =>
    by_cases hx : x = '<'
    · by_cases ho : rest.head? = some '>' ∨ (tagName? rest).isSome = true
      · rw [hb hx ho]
      · simp only [ho, false_and]
    · simp only [hx, and_false, if_false]

theorem inAttrs_corresponds {top top' : Frame} (hg : Renames g) (htop : top.Corresponds ρ g top') :
    (inAttrs (whole 0) top x y).Corresponds ρ g (inAttrs (whole 0) top' x y) := by
  unfold inAttrs
  rw [htop.token, hg.isVoid]
  split
  · exact .same trivial
  split
  · next hx => exact .same (hg.bracket x (.inr (.inr hx)))
  split
  · exact .same trivial
  split
  · split <;> exact .same trivial
  split
  · exact .cutShort htop
  split
  · exact .stray htop
  · exact .same trivial

/-- Under corresponding frames the same is decided, if the text before invites the same. -/
theorem next_corresponds {stack stack' : BracketStack} {b b' : Bool} (hg : Renames g)
    (h : FixesNames g rest) (hmode : stack'.mode = stack.mode) (hquote : stack'.quote = stack.quote)
    (hf : List.Forall₂ (Frame.Corresponds ρ g) stack.frames stack'.frames)
    (hb : x = '<' → (rest.head? = some '>' ∨ (tagName? rest).isSome = true) → b' = b) :
    (next (whole 0) stack b x rest.head? rest).Corresponds ρ g
      (next (whole 0) stack' b' x rest.head? rest) := by
  unfold next
  rw [hmode, hquote]
  cases stack.mode with
  | string =>
    dsimp only
    unfold inString
    repeat' split
    all_goals exact .same trivial
  | lineComment =>
    dsimp only
    unfold inLineComment
    split <;> exact .same trivial
  | blockComment =>
    dsimp only
    unfold inBlockComment
    split <;> exact .same trivial
  | normal =>
    dsimp only
    have hscript : (inScript (whole 0) b x rest.head? rest).Corresponds ρ g
        (inScript (whole 0) b' x rest.head? rest) := by
      rw [inScript_congr hb]
      exact .same (isFixed_inScript hg h)
    generalize stack.frames = fs at hf
    generalize stack'.frames = fs' at hf
    cases hf with
    | nil => exact hscript
    | @cons top top' _ _ htop _ =>
      simp only [outside, if_true, htop.context]
      cases top.context with
      | script => exact hscript
      | attrs => exact inAttrs_corresponds hg htop
      | markup => exact .same (isFixed_inMarkup hg h)

end Move

end SnippetGate
