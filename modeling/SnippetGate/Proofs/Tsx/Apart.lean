import SnippetGate.Proofs.Tsx.EmptyCode

/-!
# Edits do not collide

The edits of a program that parses lie apart, as the empty code that they fill does. So splicing
drops none of them, and what is empty is filled once if its code is known. A conditional is passed
over if a comment stands in its alternative before the other branch.
-/

namespace SnippetGate

namespace Edit

variable {e : Edit} {es fs : List Edit} {i j : Nat}

/-- The ranges of the edits have no byte in common. -/
def Apart (a b : Edit) : Prop := a.stop ≤ b.start ∨ b.stop ≤ a.start

theorem Apart.symm {a b : Edit} (h : a.Apart b) : b.Apart a := Or.symm h

/-- The edits that replace a byte between byte `i` and byte `j`. -/
def touching (i j : Nat) (es : List Edit) : List Edit :=
  es.filter fun e => e.start < j && i < e.stop

theorem touching_append (i j : Nat) (es fs : List Edit) :
    touching i j (es ++ fs) = touching i j es ++ touching i j fs := List.filter_append _ _

theorem touching_eq_nil (h : ∀ e ∈ es, e.stop ≤ i ∨ j ≤ e.start) : touching i j es = [] := by
  refine List.filter_eq_nil_iff.mpr fun e he => ?_
  simpa using fun hlt => (h e he).resolve_right (Nat.not_le.mpr hlt)

theorem disjointFrom_eq_self (h : es.Pairwise fun a b => a.stop ≤ b.start)
    (hi : ∀ e ∈ es, i ≤ e.start) : disjointFrom i es = es := by
  induction es generalizing i with
  | nil => rfl
  | cons e es ih =>
    obtain ⟨he, hes⟩ := List.pairwise_cons.mp h
    rw [disjointFrom, if_neg (Nat.not_lt.mpr (hi e List.mem_cons_self)), ih hes he]

/-- Edits that lie apart are all carried out. -/
theorem chosen_perm (h : es.Pairwise Apart) (hpos : ∀ e ∈ es, e.start < e.stop) :
    (chosen es).Perm es := by
  have hsorted := isStablySorted_sorted es
  have happart : (sorted es).Pairwise Apart := h.perm hsorted.perm.symm Apart.symm
  -- of two edits that lie apart the one that begins first ends before the other
  have hfollow : (sorted es).Pairwise fun a b => a.stop ≤ b.start := by
    refine (happart.and hsorted.ordered).imp_of_mem fun {a b} ha hb hab => ?_
    have hb := hpos b (hsorted.perm.subset hb)
    obtain ⟨hab | hba, hle⟩ := hab
    · exact hab
    · omega
  rw [chosen, disjointFrom_eq_self hfollow fun _ _ => Nat.zero_le _]
  exact hsorted.perm

end Edit

namespace Tsx

/-- A comment stands in the alternative of a conditional before the other branch. -/
def Node.hasLateComment (n : Node) : Bool :=
  (n.child? .alternative).any fun a => a.kind == .elseClause && a.namedChildren.head?.any isExtra

namespace Filling

variable {t : Text} {source : Bytes} {root n c b body : Node} {p : Program} {e : Edit} {i j : Nat}
  {role : Role} {lines first second : List Text}

/-! ### What is to be filled -/

/-- The node gives a handler of the role, which is not filled in the text, the empty body, and the
lines of the body are known. -/
structure Program.WantsBody (p : Program) (n : Node) (role : Role) (body : Node)
    (lines : List Text) : Prop where
  handler : ∃ name, n.handler? = some (name, body) ∧
    Role.ofName? (name.text p.source) = some role
  isFilledInText : role.isFilledInText = false
  empty : body.isEmptyBlock = true
  known : Handler.body? role p.stateVars p.collection = some lines

/-- The node is a conditional with the empty branches `c` and `b`, and their lines are known. -/
structure Program.WantsBranches (p : Program) (n c b : Node) (first second : List Text) : Prop where
  kind : n.kind = .ifStatement
  consequence : n.child? .consequence = some c
  alternative : n.otherBranch? = some b
  empty : c.isEmptyBlock = true
  empty' : b.isEmptyBlock = true
  known : Handler.branches? (((n.child? .condition).map (Node.text p.source)).getD [])
    p.stateVars = some (first, second)

/-- The edit that gives a handler its body. -/
def Program.bodyEdit (p : Program) (n : Node) (role : Role) (body : Node) (lines : List Text) :
    Edit :=
  ⟨body.start, body.stop, Bytes.ofText (Handler.block lines (p.indent n.row)), handlerRepair role⟩

/-- The edit that gives a conditional its branches, with the word between them. -/
def Program.branchesEdit (p : Program) (n c b : Node) (first second : List Text) : Edit :=
  ⟨c.start, b.stop, Bytes.ofText (Handler.block first (p.indent n.row) ++ " else ".toList ++
    Handler.block second (p.indent n.row)), conditionalRepair⟩

/-! ### Edits and empty code -/

theorem nodeEdit?_eq_conditionalEdit? (h : n.kind = .ifStatement) :
    nodeEdit? p n = conditionalEdit? p n := by
  rw [nodeEdit?, handlerEdit?, Node.handler?_eq_none h]
  rfl

theorem elseBlock?_eq_otherBranch? (h : n.hasLateComment = false) :
    n.elseBlock? = n.otherBranch? := by
  rw [Node.hasLateComment] at h
  rw [Node.elseBlock?, Node.otherBranch?]
  cases ha : n.child? .alternative with
  | none => rfl
  | some a =>
    rw [ha, Option.any_some] at h
    by_cases hkind : a.kind == .elseClause
    · rw [hkind, Bool.true_and] at h
      simp only [hkind, if_true]
      cases hnamed : a.namedChildren with
      | nil => rfl
      | cons x rest =>
        have hx : x.isExtra = false := by rw [hnamed] at h; exact h
        rw [List.find?_cons, hx]
        rfl
    · simp only [hkind, Bool.false_eq_true, if_false]

/-- A comment that stands before the other branch is taken for it. -/
theorem isExtra_of_elseBlock? (h : n.hasLateComment = true) (hb : n.elseBlock? = some b) :
    b.isExtra = true := by
  obtain ⟨a, ha, hlate⟩ := (Option.any_eq_true _ _).mp h
  obtain ⟨hkind, x, hx, hextra⟩ : a.kind == .elseClause ∧
    ∃ x, a.namedChildren.head? = some x ∧ x.isExtra := by
    simpa [Option.any_eq_true] using hlate
  rw [Node.elseBlock?, ha] at hb
  simp only [hkind, if_true, hx] at hb
  exact Option.some.inj hb ▸ hextra

theorem isExtra_of_isEmptyBlock (h : b.isEmptyBlock = true) : b.isExtra = false := by
  simp only [Node.isEmptyBlock, Bool.and_eq_true, beq_iff_eq] at h
  simp [Node.isExtra, h.1]

/-- The edits of handlers give them their bodies. -/
theorem handlerEdit?_eq_some_iff : handlerEdit? p n = some e ↔
    ∃ role body lines, p.WantsBody n role body lines ∧ e = p.bodyEdit n role body lines := by
  constructor
  · intro h
    simp only [handlerEdit?, Option.bind_eq_bind, Option.bind_eq_some_iff,
      Option.guard_eq_some'] at h
    obtain ⟨⟨name, body⟩, handler, role, hrole, _, hempty, lines, known, he⟩ := h
    obtain ⟨hlate, empty⟩ := (Bool.and_eq_true _ _).mp hempty
    exact ⟨role, body, lines, ⟨⟨name, handler, hrole⟩, by simpa using hlate, empty, known⟩,
      (Option.some.inj he).symm⟩
  · rintro ⟨role, body, lines, ⟨⟨name, handler, hrole⟩, hlate, empty, known⟩, rfl⟩
    simp [handlerEdit?, handler, hrole, hlate, empty, known, Program.bodyEdit]

/-- The edits of conditionals give them their branches, unless a comment stands in the way. -/
theorem conditionalEdit?_eq_some_iff : conditionalEdit? p n = some e ↔
    ∃ c b first second, p.WantsBranches n c b first second ∧ n.hasLateComment = false ∧
      e = p.branchesEdit n c b first second := by
  constructor
  · intro h
    simp only [conditionalEdit?, Option.bind_eq_bind, Option.bind_eq_some_iff,
      Option.guard_eq_some'] at h
    obtain ⟨_, hkind, c, hc, b, hb, _, hempty, ⟨first, second⟩, known, he⟩ := h
    obtain ⟨empty, empty'⟩ := (Bool.and_eq_true _ _).mp hempty
    have hlate : n.hasLateComment = false := by
      by_contra hlate
      have hextra := isExtra_of_elseBlock? (by simpa using hlate) hb
      rw [isExtra_of_isEmptyBlock empty'] at hextra
      cases hextra
    rw [elseBlock?_eq_otherBranch? hlate] at hb
    exact ⟨c, b, first, second, ⟨by simpa using hkind, hc, hb, empty, empty', known⟩, hlate,
      (Option.some.inj he).symm⟩
  · rintro ⟨c, b, first, second, ⟨hkind, hc, hb, empty, empty', known⟩, hlate, rfl⟩
    rw [← elseBlock?_eq_otherBranch? hlate] at hb
    simp [conditionalEdit?, hkind, hc, hb, empty, empty', known, Program.branchesEdit]

/-- An edit replaces empty code of its node. -/
theorem hasEmptyCode_of_nodeEdit? (h : nodeEdit? p n = some e) : n.HasEmptyCode e.start e.stop := by
  rw [nodeEdit?, Option.orElse_eq_some] at h
  rcases h with h | ⟨-, h⟩
  · obtain ⟨role, body, lines, ⟨⟨name, handler, -⟩, -, empty, -⟩, rfl⟩ :=
      handlerEdit?_eq_some_iff.mp h
    exact .body handler empty
  · obtain ⟨c, b, first, second, ⟨kind, consequence, alternative, empty, empty', -⟩, -, rfl⟩ :=
      conditionalEdit?_eq_some_iff.mp h
    exact .branches kind consequence alternative empty empty'

/-- The edits of a program lie apart, as the empty code of its nodes does. -/
theorem pairwise_apart_edits (h : root.IsWellFormed) (t : Text) (source : Bytes) :
    (edits t source root).Pairwise Edit.Apart :=
  h.pairwise_apart.filterMap _ fun _ _ hnm _ he _ he' =>
    hnm _ _ _ _ (hasEmptyCode_of_nodeEdit? he) (hasEmptyCode_of_nodeEdit? he')

theorem start_lt_stop_of_mem_edits (h : root.IsWellFormed) (he : e ∈ edits t source root) :
    e.start < e.stop := by
  obtain ⟨n, hn, he⟩ := List.mem_filterMap.mp he
  exact ((hasEmptyCode_of_nodeEdit? he).bounds (h.below hn)).2.1

theorem chosen_edits_perm (h : root.IsWellFormed) (t : Text) (source : Bytes) :
    (Edit.chosen (edits t source root)).Perm (edits t source root) :=
  Edit.chosen_perm (pairwise_apart_edits h t source) fun _ he => start_lt_stop_of_mem_edits h he

/-- Where a node has empty code, its own edit is the only one that is carried out. -/
theorem touching_chosen_edits (h : root.IsWellFormed) (t : Text) (source : Bytes)
    (hn : n ∈ root.walk) (hij : n.HasEmptyCode i j) :
    Edit.touching i j (Edit.chosen (edits t source root)) =
      (nodeEdit? (Program.of t source root) n).toList := by
  set p := Program.of t source root with hp
  obtain ⟨before, behind, hwalk⟩ := List.append_of_mem hn
  obtain ⟨-, hrest, hbefore⟩ := List.pairwise_append.mp (hwalk ▸ h.pairwise_apart)
  obtain ⟨hbehind, -⟩ := List.pairwise_cons.mp hrest
  have hothers {ns : List Node} (hns : ∀ x ∈ ns, x.Apart n) :
      Edit.touching i j (ns.filterMap (nodeEdit? p)) = [] := by
    refine Edit.touching_eq_nil fun e he => ?_
    obtain ⟨x, hx, he⟩ := List.mem_filterMap.mp he
    exact hns x hx _ _ _ _ (hasEmptyCode_of_nodeEdit? he) hij
  have hown : Edit.touching i j (nodeEdit? p n).toList = (nodeEdit? p n).toList := by
    cases he : nodeEdit? p n with
    | none => rfl
    | some e =>
      obtain ⟨rfl, rfl⟩ := hij.unique (hasEmptyCode_of_nodeEdit? he)
      have hlt := (hij.bounds (h.below hn)).2.1
      simp [Edit.touching, hlt]
  have hall : Edit.touching i j (edits t source root) = (nodeEdit? p n).toList := by
    have hsplit : edits t source root = before.filterMap (nodeEdit? p) ++
        ((nodeEdit? p n).toList ++ behind.filterMap (nodeEdit? p)) := by
      rw [edits, hwalk, List.filterMap_append, ← hp]
      cases he : nodeEdit? p n <;> simp [he]
    rw [hsplit, Edit.touching_append, Edit.touching_append, hown,
      hothers fun x hx => hbefore x hx n List.mem_cons_self,
      hothers fun x hx => (hbehind x hx).symm, List.nil_append, List.append_nil]
  have hperm : (Edit.touching i j (Edit.chosen (edits t source root))).Perm
      (nodeEdit? p n).toList := hall ▸ (chosen_edits_perm h t source).filter _
  revert hperm
  cases nodeEdit? p n with
  | none => exact List.perm_nil.mp
  | some e => exact List.perm_singleton.mp

/-- The empty code of a program that parses is filled once, if it is known by what. The edits lie
apart, so all of them are carried out. A handler that wants a body gets it, and a conditional that
wants branches gets these; no other edit replaces a byte there. Only a conditional with a comment in
its alternative before the other branch is passed over. -/
theorem fills_once (h : root.IsWellFormed) (t : Text) (source : Bytes) :
    let p := Program.of t source root
    let es := edits t source root
    es.Pairwise Edit.Apart ∧ (Edit.chosen es).Perm es ∧ ∀ n ∈ root.walk,
      (∀ role body lines, p.WantsBody n role body lines →
        Edit.touching body.start body.stop (Edit.chosen es) = [p.bodyEdit n role body lines]) ∧
      ∀ c b first second, p.WantsBranches n c b first second →
        Edit.touching c.start b.stop (Edit.chosen es) =
          if n.hasLateComment then [] else [p.branchesEdit n c b first second] := by
  intro p es
  refine ⟨pairwise_apart_edits h t source, chosen_edits_perm h t source, fun n hn => ⟨?_, ?_⟩⟩
  · intro role body lines hwants
    have hedit : nodeEdit? p n = some (p.bodyEdit n role body lines) := by
      rw [nodeEdit?, handlerEdit?_eq_some_iff.mpr ⟨role, body, lines, hwants, rfl⟩]
      rfl
    obtain ⟨name, handler, -⟩ := hwants.handler
    rw [touching_chosen_edits h t source hn (.body handler hwants.empty), hedit]
    rfl
  · intro c b first second hwants
    have hij : n.HasEmptyCode c.start b.stop :=
      .branches hwants.kind hwants.consequence hwants.alternative hwants.empty hwants.empty'
    rw [touching_chosen_edits h t source hn hij, nodeEdit?_eq_conditionalEdit? hwants.kind]
    cases hlate : n.hasLateComment with
    | true =>
      have hnone : conditionalEdit? p n = none := by
        refine Option.eq_none_iff_forall_ne_some.mpr fun e he => ?_
        obtain ⟨_, _, _, _, -, hearly, -⟩ := conditionalEdit?_eq_some_iff.mp he
        cases hlate.symm.trans hearly
      rw [hnone]
      rfl
    | false =>
      rw [conditionalEdit?_eq_some_iff.mpr ⟨c, b, first, second, hwants, hlate, rfl⟩]
      rfl

/-! ### A program with a comment at each place -/

/-- A program with an empty handler and two empty conditionals, which differ in where the comment
stands. -/
def commentedText : Text :=
  ("const [step,setStep]=useState(0),[done,setDone]=useState(false);" ++
    "function handleReset()\x7b\x7d" ++ "if(step<a.length)\x7b\x7d/* end */else\x7b\x7d" ++
    "if(step<a.length)\x7b\x7delse/* end */\x7b\x7d").toList

/-- A node without children. -/
def leafAt (kind : NodeKind) (field? : Option Field) (i j : Nat) : Node :=
  .mk kind field? ⟨i, j, 0⟩ []

/-- An empty block at byte `i`. -/
def emptyBlockAt (field? : Option Field) (i : Nat) : Node :=
  .mk .statementBlock field? ⟨i, i + 2, 0⟩
    [leafAt .token none i (i + 1), leafAt .token none (i + 1) (i + 2)]

/-- The declaration of a state variable at byte `i`, with names of `m` and `n` bytes and an initial
expression of `k` bytes. -/
def stateAt (i m n k : Nat) : Node :=
  let j := i + m + n + 3
  .mk .variableDeclarator none ⟨i, j + k + 11, 0⟩
    [.mk .arrayPattern (some .name) ⟨i, j, 0⟩
      [leafAt .token none i (i + 1), leafAt .identifier none (i + 1) (i + m + 1),
        leafAt .token none (i + m + 1) (i + m + 2), leafAt .identifier none (i + m + 2) (j - 1),
        leafAt .token none (j - 1) j],
      leafAt .token none j (j + 1),
      .mk .callExpression (some .value) ⟨j + 1, j + k + 11, 0⟩
        [leafAt .identifier (some .function) (j + 1) (j + 9),
          .mk (.other "arguments") (some .arguments) ⟨j + 9, j + k + 11, 0⟩
            [leafAt .token none (j + 9) (j + 10),
              leafAt (.other "literal") none (j + 10) (j + k + 10),
              leafAt .token none (j + k + 10) (j + k + 11)]]]

/-- The conditional at byte `i`, with the comment before or after the word of the alternative. -/
def conditionalAt (late : Bool) (i : Nat) : Node :=
  .mk .ifStatement none ⟨i, i + 34, 0⟩ <|
    [leafAt .token none i (i + 2),
      leafAt (.other "parenthesized_expression") (some .condition) (i + 2) (i + 17),
      emptyBlockAt (some .consequence) (i + 17)] ++
    if late then
      [.mk .elseClause (some .alternative) ⟨i + 19, i + 34, 0⟩
        [leafAt .token none (i + 19) (i + 23), leafAt .comment none (i + 23) (i + 32),
          emptyBlockAt none (i + 32)]]
    else
      [leafAt .comment none (i + 19) (i + 28),
        .mk .elseClause (some .alternative) ⟨i + 28, i + 34, 0⟩
          [leafAt .token none (i + 28) (i + 32), emptyBlockAt none (i + 32)]]

/-- The declaration of the empty handler. -/
def resetHandler : Node :=
  .mk .functionDeclaration none ⟨64, 88, 0⟩
    [leafAt .token none 64 72, leafAt .identifier (some .name) 73 84,
      .mk (.other "formal_parameters") none ⟨84, 86, 0⟩
        [leafAt .token none 84 85, leafAt .token none 85 86],
      emptyBlockAt (some .body) 86]

/-- The tree of the program. -/
def commentedRoot : Node :=
  .mk (.other "program") none ⟨0, 156, 0⟩
    [.mk (.other "lexical_declaration") none ⟨0, 64, 0⟩
      [leafAt .token none 0 5, stateAt 6 4 7 1, leafAt .token none 32 33, stateAt 33 4 7 5,
        leafAt .token none 63 64],
      resetHandler, conditionalAt false 88, conditionalAt true 122]

theorem isWellFormed_commentedRoot : commentedRoot.IsWellFormed := by
  have hall : ∀ n ∈ commentedRoot.walk, Node.InOrder n.start n.stop n.children ∧
      (n.isTrivia = true → n.children = []) ∧ (n.kind = .statementBlock → n.start < n.stop) := by
    decide +kernel
  have hifs : commentedRoot.walk.filter (·.kind == .ifStatement) =
      [conditionalAt false 88, conditionalAt true 122] := rfl
  intro n hn
  obtain ⟨inOrder, leaf, braces⟩ := hall n hn
  refine ⟨inOrder, leaf, braces, fun c a hkind hc ha => ?_⟩
  have hif : n ∈ commentedRoot.walk.filter (·.kind == .ifStatement) :=
    List.mem_filter.mpr ⟨hn, beq_iff_eq.mpr hkind⟩
  rw [hifs] at hif
  simp only [List.mem_cons, List.not_mem_nil, or_false] at hif
  rcases hif with rfl | rfl
  · obtain rfl := Option.some.inj hc
    obtain rfl := Option.some.inj ha
    exact ⟨[_, _], [_], [], rfl, by decide⟩
  · obtain rfl := Option.some.inj hc
    obtain rfl := Option.some.inj ha
    exact ⟨[_, _], [], [], rfl, by decide⟩

theorem fills_once_commentedRoot :
    let p := Program.of commentedText (Bytes.ofText commentedText) commentedRoot
    let es := Edit.chosen (edits commentedText (Bytes.ofText commentedText) commentedRoot)
    commentedRoot.IsWellFormed ∧
      Edit.touching 86 88 es = [p.bodyEdit resetHandler .reset (emptyBlockAt (some .body) 86)
        ["setStep(0);".toList, "setDone(false);".toList]] ∧
      Edit.touching 105 122 es = [p.branchesEdit (conditionalAt false 88)
        (emptyBlockAt (some .consequence) 105) (emptyBlockAt none 120)
        ["setStep(step + 1);".toList] ["setDone(true);".toList]] ∧
      Edit.touching 139 156 es = [] := by
  intro p es
  obtain ⟨-, -, hfills⟩ := fills_once isWellFormed_commentedRoot commentedText
    (Bytes.ofText commentedText)
  have hwalk {n : Node} (hn : n ∈ commentedRoot.children) : n ∈ commentedRoot.walk :=
    Node.walk_subset_of_mem_children hn n.mem_walk_self
  have hbranches (late : Bool) (i : Nat) (hi : i = 88 ∧ late = false ∨ i = 122 ∧ late = true) :
      p.WantsBranches (conditionalAt late i) (emptyBlockAt (some .consequence) (i + 17))
        (emptyBlockAt none (i + 32)) ["setStep(step + 1);".toList] ["setDone(true);".toList] := by
    rcases hi with ⟨rfl, rfl⟩ | ⟨rfl, rfl⟩
    · exact ⟨rfl, rfl, rfl, rfl, rfl, by decide +kernel⟩
    · exact ⟨rfl, rfl, rfl, rfl, rfl, by decide +kernel⟩
  refine ⟨isWellFormed_commentedRoot, ?_, ?_, ?_⟩
  · refine (hfills resetHandler (hwalk (by simp [commentedRoot, Node.children]))).1 .reset
      (emptyBlockAt (some .body) 86) _
      ⟨⟨leafAt .identifier (some .name) 73 84, rfl, ?_⟩, rfl, rfl, ?_⟩
    · decide +kernel
    · decide +kernel
  · exact (hfills _ (hwalk (by simp [commentedRoot, Node.children]))).2 _ _ _ _
      (hbranches false 88 (by decide))
  · exact (hfills _ (hwalk (by simp [commentedRoot, Node.children]))).2 _ _ _ _
      (hbranches true 122 (by decide))

end Filling

end Tsx

end SnippetGate
