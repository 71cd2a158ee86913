import SnippetGate.Handler.Body
import SnippetGate.Proofs.Pattern.Between
import SnippetGate.Proofs.Text.Basic

/-!
# Branches of a comparison

A conditional that compares the position with a length is filled by its sign alone: if the smaller
side is to be on the left of the sign the first branch advances, if it is to be on the right the
first branch ends. So the branch that is taken while the position is below the length advances if
the position stands on the left, and ends if it stands on the right. A comparison and its mirror
image never get the same branches.
-/

namespace SnippetGate

/-! ### Texts in two parts -/

namespace Text

variable {a b u v w : Text} {z : Char}

/-- A piece of a text that does not hold a character of it stands on one side of that. -/
theorem cases_of_append_cons (h : a ++ z :: b = u ++ (w ++ v)) (hz : z ∉ w) :
    (∃ c, a = u ++ (w ++ c) ∧ v = c ++ z :: b) ∨ ∃ c, u = a ++ z :: c ∧ b = c ++ (w ++ v) := by
  rcases List.append_eq_append_iff.mp h with ⟨k, rfl, hk⟩ | ⟨k, rfl, hk⟩
  · cases k with
    | nil =>
      obtain ⟨c, hc, rfl⟩ := exists_of_append_cons_eq (a := []) (w := w) hk hz
      obtain ⟨rfl, rfl⟩ := List.append_eq_nil_iff.mp hc.symm
      exact .inl ⟨[], by simp, rfl⟩
    | cons x k =>
      obtain ⟨rfl, rfl⟩ := List.cons.inj hk
      exact .inr ⟨k, rfl, rfl⟩
  · obtain ⟨c, rfl, hv⟩ := exists_of_append_cons_eq hk.symm hz
    exact .inl ⟨c, rfl, hv⟩

theorem infix_append_cons_iff (hz : z ∉ w) : w <:+: a ++ z :: b ↔ w <:+: a ∨ w <:+: b := by
  constructor
  · rintro ⟨u, v, he⟩
    rw [List.append_assoc] at he
    rcases cases_of_append_cons he.symm hz with ⟨c, rfl, -⟩ | ⟨c, -, rfl⟩
    · exact .inl ⟨u, c, by simp⟩
    · exact .inr ⟨c, v, by simp⟩
  · rintro (⟨u, v, rfl⟩ | ⟨u, v, rfl⟩)
    · exact ⟨u, v ++ z :: b, by simp⟩
    · exact ⟨a ++ z :: u, v, by simp⟩

/-- The name occurs in the text, and not as a part of a longer one. -/
def NamesAlone (t name : Text) : Prop :=
  ∃ u v, t = u ++ (name ++ v) ∧ (∀ x ∈ u.getLast?, isNameChar x = false) ∧
    ∀ x ∈ v.head?, isNameChar x = false

theorem not_namesAlone_nil {name : Text} (h : name ≠ []) : ¬ NamesAlone [] name := by
  rintro ⟨u, v, he, -⟩
  simp [h] at he

/-- Around a character that no name holds, a name stands alone on one of the two sides. -/
theorem namesAlone_append_cons_iff {name : Text} (hz : z ∉ name) (hz' : isNameChar z = false) :
    NamesAlone (a ++ z :: b) name ↔ NamesAlone a name ∨ NamesAlone b name := by
  constructor
  · rintro ⟨u, v, he, hu, hv⟩
    rcases cases_of_append_cons he hz with ⟨c, rfl, rfl⟩ | ⟨c, rfl, rfl⟩
    · refine .inl ⟨u, c, rfl, hu, fun x hx => hv x ?_⟩
      rw [Option.mem_def, List.head?_append, Option.mem_def.mp hx]
      rfl
    · refine .inr ⟨c, v, rfl, fun x hx => hu x ?_, hv⟩
      rw [Option.mem_def, List.getLast?_append_cons, List.getLast?_cons, Option.mem_def.mp hx]
      rfl
  · rintro (⟨u, v, rfl, hu, hv⟩ | ⟨u, v, rfl, hu, hv⟩)
    · refine ⟨u, v ++ z :: b, by simp, hu, fun x hx => ?_⟩
      rw [List.head?_append] at hx
      cases hh : v.head? with
      | none =>
        rw [hh] at hx
        exact Option.some.inj hx ▸ hz'
      | some y =>
        rw [hh] at hx
        exact hv x (hh.trans hx)
    · refine ⟨a ++ z :: u, v, by simp, fun x hx => ?_, hv⟩
      rw [List.getLast?_append_cons, List.getLast?_cons] at hx
      cases hl : u.getLast? with
      | none =>
        rw [hl] at hx
        exact Option.some.inj hx ▸ hz'
      | some y =>
        rw [hl] at hx
        exact hu x (hl.trans hx)

end Text

/-! ### Comparisons -/

/-- A comparison of the size of two values. -/
inductive Comparison where
  | lt
  | le
  | gt
  | ge
  deriving DecidableEq, Repr

namespace Comparison

/-- The sign of a comparison. -/
def sign : Comparison → Text
  | lt => ['<']
  | le => ['<', '=']
  | gt => ['>']
  | ge => ['>', '=']

/-- The comparison that says the same with its sides exchanged. -/
def mirror : Comparison → Comparison
  | lt => gt
  | le => ge
  | gt => lt
  | ge => le

/-- Whether the comparison holds of two values. -/
def holds : Comparison → Int → Int → Bool
  | lt, l, r => l < r
  | le, l, r => l ≤ r
  | gt, l, r => r < l
  | ge, l, r => r ≤ l

/-- Whether the smaller side is to be on the left of the sign. -/
def isUpward : Comparison → Bool
  | lt | le => true
  | gt | ge => false

/-- The comparison of two operands, written with blanks around its sign. -/
def written (c : Comparison) (a b : Text) : Text := a ++ (' ' :: c.sign ++ [' '] ++ b)

/-- What runs of two branches when the comparison is made of the values `l` and `r`. -/
def taken {α : Type} (c : Comparison) (branches : α × α) (l r : Int) : α :=
  if c.holds l r then branches.1 else branches.2

@[simp] theorem isUpward_mirror (c : Comparison) : c.mirror.isUpward = !c.isUpward := by
  cases c <;> rfl

/-- An operand: a text without the characters that comparisons are made of. -/
def IsOperand (t : Text) : Prop := ∀ x ∈ t, x ∉ "<>=!".toList

instance (t : Text) : Decidable (IsOperand t) := inferInstanceAs (Decidable (∀ x ∈ t, _))

/-- A text without blanks and comparison signs. It lies in one of the operands. -/
def IsInOperand (t : Text) : Prop := ∀ x ∈ t, x ∉ " <>=".toList

instance (t : Text) : Decidable (IsInOperand t) := inferInstanceAs (Decidable (∀ x ∈ t, _))

variable {c : Comparison} {a b w : Text}

/-- What cannot lie across any character between two texts holds of one of them. -/
theorem append_iff {P : Text → Prop} {sep : Text} (hnil : ¬ P [])
    (hcons : ∀ z ∈ sep, ∀ a b, P (a ++ z :: b) ↔ P a ∨ P b) (hne : sep ≠ []) (a b : Text) :
    P (a ++ (sep ++ b)) ↔ P a ∨ P b := by
  induction sep generalizing a with
  | nil => exact absurd rfl hne
  | cons z sep ih =>
    obtain ⟨hz, hsep⟩ := List.forall_mem_cons.mp hcons
    rw [List.cons_append, hz]
    cases sep with
    | nil => rfl
    | cons y sep =>
      have h := ih hsep (List.cons_ne_nil y sep) []
      rw [List.nil_append] at h
      rw [h, or_iff_right hnil]

theorem written_iff {P : Text → Prop} (hnil : ¬ P [])
    (hcons : ∀ z ∈ " <>=".toList, ∀ a b, P (a ++ z :: b) ↔ P a ∨ P b) :
    P (c.written a b) ↔ P a ∨ P b := by
  refine append_iff hnil (fun z hz => hcons z ?_) (by simp) a b
  revert z
  cases c <;> decide

theorem infix_written_iff (hw : IsInOperand w) (hne : w ≠ []) :
    w <:+: c.written a b ↔ w <:+: a ∨ w <:+: b :=
  written_iff (P := (w <:+: ·)) (by simpa using hne) fun z hz _ _ =>
    Text.infix_append_cons_iff fun hm => hw z hm hz

theorem namesAlone_written_iff (hw : IsInOperand w) (hne : w ≠ []) :
    (c.written a b).NamesAlone w ↔ a.NamesAlone w ∨ b.NamesAlone w :=
  written_iff (P := (·.NamesAlone w)) (Text.not_namesAlone_nil hne) fun z hz _ _ =>
    Text.namesAlone_append_cons_iff (fun hm => hw z hm hz) (by
      revert z
      decide)

end Comparison

namespace Handler

open Pattern Comparison

variable {c : Comparison} {a b t name : Text} {vs : List StateVar} {v : StateVar}

theorem occursIn_standalone : (standalone name).occursIn t = true ↔ t.NamesAlone name := by
  rw [occursIn_iff_begins (by simp [standalone, isDirect])]
  simp only [standalone, all, Begins, Reaches, reaches_text, Text.NamesAlone]
  constructor
  · rintro ⟨u, _, rfl, hu, v, rfl, hv, -⟩
    refine ⟨u, v, rfl, hu, fun x hx => ?_⟩
    obtain ⟨r, rfl⟩ := List.head?_eq_some_iff.mp (Option.mem_def.mp hx)
    exact Bool.eq_false_iff.mpr fun hn => hv ⟨x, r, rfl, hn, trivial⟩
  · rintro ⟨u, v, rfl, hu, hv⟩
    refine ⟨u, name ++ v, rfl, hu, v, rfl, ?_, trivial⟩
    rintro ⟨x, r, rfl, hn, -⟩
    exact absurd hn (Bool.eq_false_iff.mp (hv x rfl))

/-- Whether the first branch is the one that goes on hangs on two signs alone. -/
theorem occursIn_continues : continues.occursIn t = true ↔ '<' ∈ t ∨ "!=".toList <:+: t := by
  rw [occursIn_iff_begins rfl]
  simp only [continues, any, char, word, Begins, Reaches, reaches_text, beq_iff_eq]
  constructor
  · rintro ⟨u, _, rfl, ⟨_, r, rfl, rfl, -⟩ | ⟨r, rfl, -⟩⟩
    · exact .inl (by simp)
    · exact .inr ⟨u, r, by simp⟩
  · rintro (h | ⟨u, r, rfl⟩)
    · obtain ⟨u, r, rfl⟩ := List.append_of_mem h
      exact ⟨u, _, rfl, .inl ⟨_, r, rfl, rfl, trivial⟩⟩
    · exact ⟨u, "!=".toList ++ r, by simp, .inr ⟨r, rfl, trivial⟩⟩

/-- Which branch goes on hangs on the side that is to be the smaller one, and on nothing else of the
comparison. -/
theorem occursIn_continues_written (ha : IsOperand a) (hb : IsOperand b) :
    continues.occursIn (c.written a b) = c.isUpward := by
  have hne : ¬ "!=".toList <:+: c.written a b := by
    intro h
    have hm : '!' ∈ c.written a b := h.subset (by decide)
    rw [Comparison.written, List.mem_append, List.cons_append, List.cons_append, List.mem_cons,
      List.mem_append, List.mem_append] at hm
    rcases hm with hm | hm | (hm | hm) | hm
    · exact ha _ hm (by decide)
    · cases hm
    · cases c <;> revert hm <;> decide
    · revert hm
      decide
    · exact hb _ hm (by decide)
  have ha' : '<' ∉ a := fun h => ha _ h (by decide)
  have hb' : '<' ∉ b := fun h => hb _ h (by decide)
  rw [Bool.eq_iff_iff, occursIn_continues, or_iff_left hne]
  cases c <;> simp [Comparison.written, Comparison.sign, Comparison.isUpward, ha', hb']

theorem advanceLine_ne_setLine (index finish : StateVar) : advanceLine index ≠ setLine finish := by
  intro h
  have hlast := congrArg (fun t => (List.reverse t)[2]?) h
  simp [advanceLine, setLine, callLine] at hlast

/-- The branches, the one that advances first or not. -/
def inOrder (advancesFirst : Bool) (index finish : StateVar) : List Text × List Text :=
  if advancesFirst then ([advanceLine index], [setLine finish])
  else ([setLine finish], [advanceLine index])

theorem swap_inOrder (advancesFirst : Bool) (index finish : StateVar) :
    (inOrder advancesFirst index finish).swap = inOrder (!advancesFirst) index finish := by
  cases advancesFirst <;> rfl

theorem inOrder_not_ne (advancesFirst : Bool) (index finish : StateVar) :
    inOrder (!advancesFirst) index finish ≠ inOrder advancesFirst index finish := by
  intro h
  have hne := advanceLine_ne_setLine index finish
  cases advancesFirst <;> simp [inOrder, hne, hne.symm] at h

/-- The branches of a comparison are given in the order that its sign has. -/
theorem branches?_written (ha : IsOperand a) (hb : IsOperand b) :
    branches? (c.written a b) vs =
      (StateVar.index? vs).bind fun index => (StateVar.finish? vs).bind fun finish =>
        if (standalone index.name).occursIn (c.written a b) &&
            (c.written a b).holds ".length".toList then
          some (inOrder c.isUpward index finish)
        else none := by
  unfold branches?
  cases StateVar.index? vs with
  | none => rfl
  | some index =>
    cases StateVar.finish? vs with
    | none => rfl
    | some finish =>
      simp only [occursIn_continues_written ha hb, Option.bind_some, inOrder]
      split <;> cases c.isUpward <;> rfl

/-- Of which comparisons there are branches does not change when the sides are exchanged. -/
theorem applies_mirror (hname : IsInOperand name) (hne : name ≠ []) :
    ((standalone name).occursIn (c.mirror.written b a) &&
        (c.mirror.written b a).holds ".length".toList) =
      ((standalone name).occursIn (c.written a b) &&
        (c.written a b).holds ".length".toList) := by
  have hlength : IsInOperand ".length".toList := by decide
  rw [Bool.eq_iff_iff]
  simp only [Bool.and_eq_true, occursIn_standalone, Text.holds_iff_infix,
    namesAlone_written_iff hname hne, infix_written_iff hlength (by decide)]
  rw [or_comm, or_comm (a := ".length".toList <:+: b)]

theorem name_ne_nil (h : StateVar.index? vs = some v) : v.name ≠ [] := by
  have hv : v ∈ vs.filter StateVar.isIndexLike := by
    rw [StateVar.index?, Option.orElse_eq_orElse, Option.orElse_eq_or] at h
    rcases Option.or_eq_some_iff.mp h with h | ⟨-, h⟩
    · exact List.mem_of_find?_eq_some h
    · exact List.mem_of_mem_head? h
  intro hnil
  have hhint := (Bool.and_eq_true_iff.mp (List.mem_filter.mp hv).2).2
  rw [hnil] at hhint
  exact absurd hhint (by decide)

theorem branches?_mirror_eq_swap (ha : IsOperand a) (hb : IsOperand b)
    (hname : ∀ v ∈ StateVar.index? vs, IsInOperand v.name) :
    branches? (c.mirror.written b a) vs = (branches? (c.written a b) vs).map Prod.swap := by
  rw [branches?_written hb ha, branches?_written ha hb]
  cases hindex : StateVar.index? vs with
  | none => rfl
  | some index =>
    cases StateVar.finish? vs with
    | none => rfl
    | some finish =>
      simp only [Option.bind_some, applies_mirror (hname index hindex) (name_ne_nil hindex),
        isUpward_mirror]
      split
      · rw [Option.map_some, swap_inOrder]
      · rfl

theorem exists_of_mem_branches? {p : List Text × List Text} (ha : IsOperand a) (hb : IsOperand b)
    (h : p ∈ branches? (c.written a b) vs) :
    ∃ index ∈ StateVar.index? vs, ∃ finish ∈ StateVar.finish? vs,
      p = inOrder c.isUpward index finish := by
  rw [branches?_written ha hb, Option.mem_def, Option.bind_eq_some_iff] at h
  obtain ⟨index, hindex, h⟩ := h
  obtain ⟨finish, hfinish, h⟩ := Option.bind_eq_some_iff.mp h
  have he := Option.some.inj (Option.ite_none_right_eq_some.mp h).2
  exact ⟨index, hindex, finish, hfinish, he.symm⟩

theorem taken_inOrder (index finish : StateVar) {i n : Int} (h : i < n) :
    c.taken (inOrder c.isUpward index finish) i n = [advanceLine index] ∧
      c.taken (inOrder c.isUpward index finish) n i = [setLine finish] := by
  have hle : i ≤ n := Int.le_of_lt h
  have hlt : ¬ n < i := Int.not_lt.mpr hle
  have hnle : ¬ n ≤ i := Int.not_le.mpr h
  cases c <;> simp [taken, inOrder, isUpward, holds, h, hle, hlt, hnle]

/-- The branches of a comparison and of its mirror image are never the same: both have none, or they
have the same two the other way round. For a name of the position that can only lie in an operand
nothing else can happen. The branch that is taken while the position `i` is below the end `n` is the
advancing one if the position stands on the left, and the ending one if it stands on the right. -/
theorem branches?_mirror (c : Comparison) (vs : List StateVar) (ha : IsOperand a)
    (hb : IsOperand b) :
    (branches? (c.mirror.written b a) vs = branches? (c.written a b) vs ↔
        branches? (c.written a b) vs = none ∧ branches? (c.mirror.written b a) vs = none) ∧
      ((∀ v ∈ StateVar.index? vs, IsInOperand v.name) →
        branches? (c.mirror.written b a) vs = (branches? (c.written a b) vs).map Prod.swap) ∧
      ∀ p ∈ branches? (c.written a b) vs,
        ∃ index ∈ StateVar.index? vs, ∃ finish ∈ StateVar.finish? vs, ∀ i n : Int, i < n →
          c.taken p i n = [advanceLine index] ∧ c.taken p n i = [setLine finish] := by
  refine ⟨⟨fun h => ?_, fun h => h.2.trans h.1.symm⟩, branches?_mirror_eq_swap ha hb, ?_⟩
  · rw [h, and_self, Option.eq_none_iff_forall_not_mem]
    intro p hp
    obtain ⟨index, hindex, finish, hfinish, rfl⟩ := exists_of_mem_branches? ha hb hp
    obtain ⟨index', hindex', finish', hfinish', he⟩ :=
      exists_of_mem_branches? hb ha (h.symm ▸ hp : _ ∈ branches? (c.mirror.written b a) vs)
    obtain rfl := Option.mem_unique hindex hindex'
    obtain rfl := Option.mem_unique hfinish hfinish'
    rw [isUpward_mirror] at he
    exact inOrder_not_ne _ _ _ he.symm
  · intro p hp
    obtain ⟨index, hindex, finish, hfinish, rfl⟩ := exists_of_mem_branches? ha hb hp
    exact ⟨index, hindex, finish, hfinish, fun i n hin => taken_inOrder index finish hin⟩

/-- A position and a flag for the end. -/
def quizState : List StateVar :=
  [⟨"currentIndex".toList, "setCurrentIndex".toList, "0".toList⟩,
    ⟨"isComplete".toList, "setIsComplete".toList, "false".toList⟩]

/-- With the length on the left, the lesson ends while there is a question left. -/
theorem branches?_mirror_lengthFirst :
    branches? (Comparison.lt.written "currentIndex".toList "questions.length - 1".toList)
        quizState =
      some (["setCurrentIndex(currentIndex + 1);".toList], ["setIsComplete(true);".toList]) ∧
    branches? (Comparison.gt.written "questions.length - 1".toList "currentIndex".toList)
        quizState =
      some (["setIsComplete(true);".toList], ["setCurrentIndex(currentIndex + 1);".toList]) := by
  have hname : ∀ v ∈ StateVar.index? quizState, IsInOperand v.name := by decide +kernel
  have hswap := (branches?_mirror .lt quizState (a := "currentIndex".toList)
    (b := "questions.length - 1".toList) (by decide) (by decide)).2.1 hname
  have hlt : branches? (Comparison.lt.written "currentIndex".toList
      "questions.length - 1".toList) quizState =
      some (["setCurrentIndex(currentIndex + 1);".toList], ["setIsComplete(true);".toList]) := by
    decide +kernel
  rw [hlt] at hswap
  exact ⟨hlt, hswap⟩

end Handler

end SnippetGate
