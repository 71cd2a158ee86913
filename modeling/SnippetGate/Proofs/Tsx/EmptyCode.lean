import SnippetGate.Proofs.Bytes.Splice

/-!
# Empty code of a tree

In the tree of a program that parses, the children of a node stand in it one behind the other. So
two nodes with empty code, be it the body of a handler or the branches of a conditional, do not have
it in common, whether one of them lies in the other or not: what is empty holds nothing but comments
and braces.
-/

namespace SnippetGate.Tsx.Node

variable {n m x root : Node} {ns before behind : List Node} {i j k l : Nat}

/-! ### Trees of programs that parse -/

/-- The nodes stand between byte `i` and byte `j`, one behind the other. -/
def InOrder : Nat → Nat → List Node → Prop
  | i, j, [] => i ≤ j
  | i, j, n :: ns => i ≤ n.start ∧ InOrder n.stop j ns

instance InOrder.decidable : ∀ i j ns, Decidable (InOrder i j ns)
  | i, j, [] => inferInstanceAs (Decidable (i ≤ j))
  | i, j, n :: ns =>
    have := InOrder.decidable n.stop j ns
    inferInstanceAs (Decidable (i ≤ n.start ∧ InOrder n.stop j ns))

/-- Whether a node is a comment, a remark or a fixed piece of text. -/
def isTrivia (n : Node) : Bool := n.isExtra || !n.isNamed

/-- What holds of each node in the tree of a program that parses. -/
structure IsLaidOut (n : Node) : Prop where
  /-- The children stand in the node, one behind the other. -/
  inOrder : InOrder n.start n.stop n.children
  /-- Comments, remarks and fixed pieces of text have no children. -/
  leaf : n.isTrivia = true → n.children = []
  /-- A block has its braces. -/
  braces : n.kind = .statementBlock → n.start < n.stop
  /-- Between the branches of a conditional stand comments and fixed pieces of text. -/
  branches : ∀ c a, n.kind = .ifStatement → n.child? .consequence = some c →
    n.child? .alternative = some a → ∃ before between behind,
      n.children = before ++ c :: (between ++ a :: behind) ∧ ∀ m ∈ between, m.isTrivia = true

/-- Every node of the tree is laid out as in the tree of a program that parses. -/
def IsWellFormed (root : Node) : Prop := ∀ n ∈ root.walk, n.IsLaidOut

/-! ### Nodes below a node -/

/-- What holds of a node if it holds of its children holds of every node. -/
theorem induction {P : Node → Prop} (step : ∀ n, (∀ c ∈ n.children, P c) → P n) : ∀ n, P n
  | mk _ _ _ cs => step _ fun c _ => induction step c
termination_by n => sizeOf n
decreasing_by
  have hlt := List.sizeOf_lt_of_mem (show c ∈ cs from ‹_›)
  simp only [mk.sizeOf_spec]
  omega

theorem walk_eq (n : Node) : n.walk = n :: walkAll n.children := by
  cases n
  rfl

theorem walkAll_append (ns ms : List Node) : walkAll (ns ++ ms) = walkAll ns ++ walkAll ms := by
  induction ns with
  | nil => rfl
  | cons n ns ih => rw [List.cons_append, walkAll, ih, walkAll, List.append_assoc]

theorem mem_walk_self (n : Node) : n ∈ n.walk := by
  rw [walk_eq]
  exact List.mem_cons_self

theorem walk_subset_of_mem_children (h : x ∈ n.children) : x.walk ⊆ n.walk := by
  obtain ⟨before, behind, hn⟩ := List.append_of_mem h
  rw [walk_eq n, hn, walkAll_append, walkAll]
  exact fun m hm => by simp [hm]

theorem exists_of_mem_walkAll (h : m ∈ walkAll ns) : ∃ n ∈ ns, m ∈ n.walk := by
  induction ns with
  | nil => cases h
  | cons n ns ih =>
    rcases List.mem_append.mp h with h | h
    · exact ⟨n, List.mem_cons_self, h⟩
    · obtain ⟨x, hx, h⟩ := ih h
      exact ⟨x, List.mem_cons_of_mem n hx, h⟩

theorem mem_children_of_child? {f : Field} (h : n.child? f = some m) : m ∈ n.children :=
  List.mem_of_find?_eq_some h

namespace IsWellFormed

theorem isLaidOut (h : n.IsWellFormed) : n.IsLaidOut := h n (mem_walk_self n)

theorem child (h : n.IsWellFormed) (hm : m ∈ n.children) : m.IsWellFormed := fun x hx =>
  h x (walk_subset_of_mem_children hm hx)

theorem below (h : n.IsWellFormed) (hm : m ∈ n.walk) : m.IsWellFormed := by
  induction n using induction with
  | step n ih =>
    rw [walk_eq] at hm
    rcases List.mem_cons.mp hm with rfl | hm
    · exact h
    · obtain ⟨c, hc, hm⟩ := exists_of_mem_walkAll hm
      exact ih c hc (h.child hc) hm

end IsWellFormed

theorem InOrder.le (h : InOrder i j ns) (hns : ∀ n ∈ ns, n.start ≤ n.stop) : i ≤ j := by
  induction ns generalizing i with
  | nil => exact h
  | cons n ns ih =>
    obtain ⟨hn, hns⟩ := List.forall_mem_cons.mp hns
    exact h.1.trans (hn.trans (ih h.2 hns))

theorem IsWellFormed.start_le_stop (h : n.IsWellFormed) : n.start ≤ n.stop := by
  induction n using induction with
  | step n ih => exact h.isLaidOut.inOrder.le fun c hc => ih c hc (h.child hc)

theorem inOrder_append_cons :
    InOrder i j (before ++ x :: behind) ↔ InOrder i x.start before ∧ InOrder x.stop j behind := by
  induction before generalizing i with
  | nil => exact Iff.rfl
  | cons n before ih => rw [List.cons_append, InOrder, InOrder, ih, and_assoc]

theorem InOrder.bounds (h : InOrder i j ns) (hns : ∀ n ∈ ns, n.start ≤ n.stop) (hn : n ∈ ns) :
    i ≤ n.start ∧ n.stop ≤ j := by
  obtain ⟨before, behind, rfl⟩ := List.append_of_mem hn
  obtain ⟨hbefore, hbehind⟩ := inOrder_append_cons.mp h
  exact ⟨hbefore.le fun m hm => hns m (by simp [hm]), hbehind.le fun m hm => hns m (by simp [hm])⟩

/-- The nodes below a node stand in it. -/
theorem IsWellFormed.bounds (h : n.IsWellFormed) (hm : m ∈ n.walk) :
    n.start ≤ m.start ∧ m.stop ≤ n.stop := by
  induction n using induction with
  | step n ih =>
    rw [walk_eq] at hm
    rcases List.mem_cons.mp hm with rfl | hm
    · exact ⟨le_rfl, le_rfl⟩
    · obtain ⟨c, hc, hm⟩ := exists_of_mem_walkAll hm
      obtain ⟨hstart, hstop⟩ :=
        h.isLaidOut.inOrder.bounds (fun x hx => (h.child hx).start_le_stop) hc
      obtain ⟨hstart', hstop'⟩ := ih c hc (h.child hc) hm
      exact ⟨hstart.trans hstart', hstop'.trans hstop⟩

theorem InOrder.bounds_walkAll (h : InOrder i j ns) (hns : ∀ n ∈ ns, n.IsWellFormed)
    (hm : m ∈ walkAll ns) : i ≤ m.start ∧ m.stop ≤ j := by
  obtain ⟨n, hn, hm⟩ := exists_of_mem_walkAll hm
  obtain ⟨hstart, hstop⟩ := h.bounds (fun x hx => (hns x hx).start_le_stop) hn
  obtain ⟨hstart', hstop'⟩ := (hns n hn).bounds hm
  exact ⟨hstart.trans hstart', hstop'.trans hstop⟩

/-- A node below some nodes stands before one of them, below it or behind it. -/
theorem InOrder.beside (h : InOrder i j (before ++ x :: behind))
    (hns : ∀ n ∈ before ++ x :: behind, n.IsWellFormed)
    (hm : m ∈ walkAll (before ++ x :: behind)) :
    m ∈ walkAll before ∧ m.stop ≤ x.start ∨ m ∈ x.walk ∨ m ∈ walkAll behind ∧ x.stop ≤ m.start := by
  obtain ⟨hbefore, hbehind⟩ := inOrder_append_cons.mp h
  rw [walkAll_append, walkAll] at hm
  simp only [List.mem_append] at hm
  rcases hm with hm | hm | hm
  · exact .inl ⟨hm, (hbefore.bounds_walkAll (fun n hn => hns n (by simp [hn])) hm).2⟩
  · exact .inr (.inl hm)
  · exact .inr (.inr ⟨hm, (hbehind.bounds_walkAll (fun n hn => hns n (by simp [hn])) hm).1⟩)

theorem IsWellFormed.beside (h : n.IsWellFormed) (hn : n.children = before ++ x :: behind)
    (hm : m ∈ walkAll n.children) :
    m ∈ walkAll before ∧ m.stop ≤ x.start ∨ m ∈ x.walk ∨ m ∈ walkAll behind ∧ x.stop ≤ m.start := by
  have horder := h.isLaidOut.inOrder
  rw [hn] at horder hm
  exact horder.beside (fun c hc => h.child (hn ▸ hc)) hm

/-! ### Empty code -/

/-- The other branch of a conditional, whatever comments stand before it. -/
def otherBranch? (n : Node) : Option Node :=
  match n.child? .alternative with
  | none => none
  | some a => if a.kind == .elseClause then a.namedChildren.find? (!·.isExtra) else some a

/-- The node has empty code from byte `i` to byte `j`: a function is given an empty body there, or
both branches of a conditional are empty. -/
inductive HasEmptyCode (n : Node) : Nat → Nat → Prop where
  | body {name body : Node} (handler : n.handler? = some (name, body))
    (empty : body.isEmptyBlock = true) : HasEmptyCode n body.start body.stop
  | branches {c b : Node} (kind : n.kind = .ifStatement)
    (consequence : n.child? .consequence = some c) (alternative : n.otherBranch? = some b)
    (empty : c.isEmptyBlock = true) (empty' : b.isEmptyBlock = true) :
    HasEmptyCode n c.start b.stop

/-- Neither the node nor a node below it has empty code. -/
def IsHollow (n : Node) : Prop := ∀ m ∈ n.walk, ∀ i j, ¬ m.HasEmptyCode i j

/-- A function is declared with its body, or a variable is given a function with one. -/
theorem handler?_cases {name body : Node} (h : n.handler? = some (name, body)) :
    n.kind = .functionDeclaration ∧ n.child? .body = some body ∨
      n.kind = .variableDeclarator ∧ ∃ v, n.child? .value = some v ∧ v.kind ∈ functionKinds ∧
        v.child? .body = some body := by
  simp only [handler?, Option.bind_eq_bind, Option.bind_eq_some_iff] at h
  obtain ⟨_, -, h⟩ := h
  split at h
  · next hk =>
    obtain ⟨_, hb, h⟩ := Option.bind_eq_some_iff.mp h
    obtain ⟨-, rfl⟩ := Prod.mk.inj (Option.some.inj h)
    exact .inl ⟨hk, hb⟩
  · next hk =>
    simp only [Option.bind_eq_some_iff] at h
    obtain ⟨v, hv, _, hkind, _, hb, h⟩ := h
    obtain ⟨-, rfl⟩ := Prod.mk.inj (Option.some.inj h)
    exact .inr ⟨hk, v, hv, by simpa using hkind, hb⟩
  · cases h

theorem handler?_eq_none (h : n.kind = .ifStatement) : n.handler? = none := by
  refine Option.eq_none_iff_forall_ne_some.mpr fun (_, body) hn => ?_
  rcases handler?_cases hn with ⟨hk, -⟩ | ⟨hk, -⟩ <;> rw [h] at hk <;> cases hk

/-! ### What is empty is hollow -/

theorem not_hasEmptyCode (hf : n.kind ≠ .functionDeclaration) (hv : n.kind ≠ .variableDeclarator)
    (hi : n.kind ≠ .ifStatement) : ¬ n.HasEmptyCode i j := by
  rintro (⟨handler, -⟩ | ⟨kind, -⟩)
  · exact (handler?_cases handler).elim (fun h => hf h.1) fun h => hv h.1
  · exact hi kind

theorem isHollow_of_isTrivia (h : n.IsLaidOut) (ht : n.isTrivia = true) : n.IsHollow := by
  intro m hm k l
  rw [walk_eq, h.leaf ht] at hm
  obtain rfl := List.mem_singleton.mp hm
  apply not_hasEmptyCode <;> intro hk <;> simp [isTrivia, isExtra, isNamed, hk] at ht

theorem not_hasEmptyCode_of_mem_walkAll (hns : ∀ n ∈ ns, n.IsWellFormed)
    (ht : ∀ n ∈ ns, n.isTrivia = true) (hm : m ∈ walkAll ns) : ¬ m.HasEmptyCode k l := by
  obtain ⟨n, hn, hm⟩ := exists_of_mem_walkAll hm
  exact isHollow_of_isTrivia (hns n hn).isLaidOut (ht n hn) m hm k l

/-- An empty block holds nothing but comments and its braces. -/
theorem isHollow_of_isEmptyBlock (h : n.IsWellFormed) (he : n.isEmptyBlock = true) :
    n.IsHollow := by
  obtain ⟨hkind, hcomments⟩ : n.kind = .statementBlock ∧ ∀ c ∈ n.namedChildren, c.isComment := by
    simpa [isEmptyBlock] using he
  intro m hm k l
  rw [walk_eq] at hm
  rcases List.mem_cons.mp hm with rfl | hm
  · apply not_hasEmptyCode <;> rw [hkind] <;> decide
  · refine not_hasEmptyCode_of_mem_walkAll (fun c hc => h.child hc) (fun c hc => ?_) hm
    by_cases hnamed : c.isNamed
    · have hcomment := hcomments c (List.mem_filter.mpr ⟨hc, hnamed⟩)
      rw [isComment] at hcomment
      rw [isTrivia, isExtra, hcomment, Bool.true_or, Bool.true_or]
    · simp [isTrivia, hnamed]

/-! ### Empty code lies apart -/

/-- The nodes do not have empty code in common. -/
def Apart (n m : Node) : Prop :=
  ∀ i j k l, n.HasEmptyCode i j → m.HasEmptyCode k l → j ≤ k ∨ l ≤ i

theorem Apart.symm (h : n.Apart m) : m.Apart n := fun i j k l hm hn => (h k l i j hn hm).symm

/-- A node below a node stands outside of a child that is hollow, or has no empty code. -/
theorem IsWellFormed.beside_of_isHollow (h : n.IsWellFormed) (hx : x ∈ n.children)
    (hollow : x.IsHollow) (hm : m ∈ walkAll n.children) (hkl : m.HasEmptyCode k l) :
    m.stop ≤ x.start ∨ x.stop ≤ m.start := by
  obtain ⟨before, behind, hn⟩ := List.append_of_mem hx
  rcases h.beside hn hm with ⟨-, hle⟩ | hbelow | ⟨-, hle⟩
  · exact .inl hle
  · exact absurd hkl (hollow m hbelow k l)
  · exact .inr hle

/-- The alternative `a` is the branch, or holds it after comments and fixed pieces of text. -/
def IsBranchOf (branch a : Node) : Prop :=
  a = branch ∨ a.kind = .elseClause ∧ ∃ before behind, a.children = before ++ branch :: behind ∧
    ∀ m ∈ before, m.isTrivia = true

theorem exists_isBranchOf {b : Node} (h : n.otherBranch? = some b) :
    ∃ a, n.child? .alternative = some a ∧ b.IsBranchOf a := by
  rw [otherBranch?] at h
  split at h
  · cases h
  next a ha =>
  refine ⟨a, ha, ?_⟩
  split at h
  · next hkind =>
    rw [namedChildren, List.find?_filter] at h
    obtain ⟨-, before, behind, hchildren, hbefore⟩ := List.find?_eq_some_iff_append.mp h
    refine .inr ⟨by simpa using hkind, before, behind, hchildren, fun m hm => ?_⟩
    simpa [isTrivia, or_comm, imp_iff_not_or] using hbefore m hm
  · exact .inl (Option.some.inj h)

theorem start_lt_stop_of_isEmptyBlock (h : n.IsWellFormed) (he : n.isEmptyBlock = true) :
    n.start < n.stop := by
  refine h.isLaidOut.braces ?_
  simp only [isEmptyBlock, Bool.and_eq_true, beq_iff_eq] at he
  exact he.1

/-- A node below a conditional whose first branch is hollow stands before its branches, below its
alternative or behind them, or has no empty code. -/
theorem IsWellFormed.beside_branches {c a : Node} {between : List Node} (h : n.IsWellFormed)
    (hn : n.children = before ++ c :: (between ++ a :: behind))
    (ht : ∀ x ∈ between, x.isTrivia = true) (hollow : c.IsHollow) (hm : m ∈ walkAll n.children)
    (hkl : m.HasEmptyCode k l) : m.stop ≤ c.start ∨ m ∈ a.walk ∨ a.stop ≤ m.start := by
  have hchild : ∀ x ∈ between ++ a :: behind, x.IsWellFormed := fun x hx =>
    h.child (hn ▸ List.mem_append_right before (List.mem_cons_of_mem c hx))
  have horder := h.isLaidOut.inOrder
  rw [hn] at horder
  have hrest := (inOrder_append_cons.mp horder).2
  rcases h.beside hn hm with ⟨-, hle⟩ | hbelow | ⟨hbehind, -⟩
  · exact .inl hle
  · exact absurd hkl (hollow m hbelow k l)
  rcases hrest.beside hchild hbehind with ⟨hbetween, -⟩ | hbelow | ⟨-, hle⟩
  · exact absurd hkl
      (not_hasEmptyCode_of_mem_walkAll (fun x hx => hchild x (by simp [hx])) ht hbetween)
  · exact .inr (.inl hbelow)
  · exact .inr (.inr hle)

/-- A node in the alternative of a conditional stands behind the other branch if this is hollow, or
has no empty code. -/
theorem IsBranchOf.stop_le_start {a b : Node} (hb : b.IsBranchOf a) (h : a.IsWellFormed)
    (hollow : b.IsHollow) (hm : m ∈ a.walk) (hkl : m.HasEmptyCode k l) : b.stop ≤ m.start := by
  rcases hb with rfl | ⟨hkind, before, behind, ha, ht⟩
  · exact absurd hkl (hollow m hm k l)
  rw [walk_eq] at hm
  rcases List.mem_cons.mp hm with rfl | hm
  · refine absurd hkl (not_hasEmptyCode ?_ ?_ ?_) <;> rw [hkind] <;> decide
  rcases h.beside ha hm with ⟨hbefore, -⟩ | hbelow | ⟨-, hle⟩
  · exact absurd hkl
      (not_hasEmptyCode_of_mem_walkAll (fun x hx => h.child (ha ▸ by simp [hx])) ht hbefore)
  · exact absurd hkl (hollow m hbelow k l)
  · exact hle

theorem IsBranchOf.mem_walk {a b : Node} (h : b.IsBranchOf a) : b ∈ a.walk := by
  rcases h with rfl | ⟨-, _, _, hchildren, -⟩
  · exact mem_walk_self a
  · exact walk_subset_of_mem_children (hchildren ▸ by simp) (mem_walk_self b)

namespace HasEmptyCode

theorem unique (hij : n.HasEmptyCode i j) (hkl : n.HasEmptyCode k l) : i = k ∧ j = l := by
  cases hij with
  | body handler _ =>
    cases hkl with
    | body handler' _ =>
      obtain ⟨-, rfl⟩ := Prod.mk.inj (Option.some.inj (handler.symm.trans handler'))
      exact ⟨rfl, rfl⟩
    | branches kind => cases (handler?_eq_none kind).symm.trans handler
  | branches kind consequence alternative =>
    cases hkl with
    | body handler _ => cases (handler?_eq_none kind).symm.trans handler
    | branches _ consequence' alternative' =>
      obtain rfl := Option.some.inj (consequence.symm.trans consequence')
      obtain rfl := Option.some.inj (alternative.symm.trans alternative')
      exact ⟨rfl, rfl⟩

/-- Where a node has empty code there are some bytes, and they lie in the node. -/
theorem bounds (h : n.IsWellFormed) (hn : n.HasEmptyCode i j) :
    n.start ≤ i ∧ i < j ∧ j ≤ n.stop := by
  cases hn with
  | @body _ b handler empty =>
    have hb : b ∈ n.walk := by
      rcases handler?_cases handler with ⟨-, hb⟩ | ⟨-, v, hv, -, hb⟩
      · exact walk_subset_of_mem_children (mem_children_of_child? hb) (mem_walk_self b)
      · exact walk_subset_of_mem_children (mem_children_of_child? hv)
          (walk_subset_of_mem_children (mem_children_of_child? hb) (mem_walk_self b))
    obtain ⟨hstart, hstop⟩ := h.bounds hb
    exact ⟨hstart, start_lt_stop_of_isEmptyBlock (h.below hb) empty, hstop⟩
  | @branches c b kind consequence alternative empty empty' =>
    obtain ⟨a, ha, hab⟩ := exists_isBranchOf alternative
    obtain ⟨before, between, behind, hsplit, -⟩ := h.isLaidOut.branches c a kind consequence ha
    have hwalk {x : Node} (hx : x ∈ n.children) : x ∈ n.walk :=
      walk_subset_of_mem_children hx (mem_walk_self x)
    have hc := hwalk (mem_children_of_child? consequence)
    have ha := hwalk (mem_children_of_child? ha)
    have hb := hab.mem_walk
    have hca : c.stop ≤ a.start := by
      have horder := h.isLaidOut.inOrder
      rw [hsplit] at horder
      have hbetween := (inOrder_append_cons.mp (inOrder_append_cons.mp horder).2).1
      exact hbetween.le fun x hx => (h.child (hsplit ▸ by simp [hx])).start_le_stop
    have hpos := start_lt_stop_of_isEmptyBlock (h.below hc) empty
    have hpos' := start_lt_stop_of_isEmptyBlock ((h.below ha).below hb) empty'
    obtain ⟨hstart, -⟩ := h.bounds hc
    obtain ⟨hstart', hstop'⟩ := (h.below ha).bounds hb
    obtain ⟨-, hstop⟩ := h.bounds ha
    omega

/-- Nodes below a node with empty code that have some themselves stand outside of it. -/
theorem beside (h : n.IsWellFormed) (hn : n.HasEmptyCode i j) (hm : m ∈ walkAll n.children)
    (hkl : m.HasEmptyCode k l) : m.stop ≤ i ∨ j ≤ m.start := by
  cases hn with
  | @body _ b handler empty =>
    rcases handler?_cases handler with ⟨-, hb⟩ | ⟨-, v, hv, hkind, hb⟩
    · have hb := mem_children_of_child? hb
      exact h.beside_of_isHollow hb (isHollow_of_isEmptyBlock (h.child hb) empty) hm hkl
    · have hb := mem_children_of_child? hb
      obtain ⟨before, behind, hsplit⟩ := List.append_of_mem (mem_children_of_child? hv)
      have hv := h.child (mem_children_of_child? hv)
      obtain ⟨hstart, hstop⟩ := hv.bounds (walk_subset_of_mem_children hb (mem_walk_self b))
      rcases h.beside hsplit hm with ⟨-, hle⟩ | hbelow | ⟨-, hle⟩
      · exact .inl (hle.trans hstart)
      · rw [walk_eq] at hbelow
        rcases List.mem_cons.mp hbelow with rfl | hbelow
        · refine absurd hkl (not_hasEmptyCode ?_ ?_ ?_) <;> intro hk <;>
            simp [functionKinds, hk] at hkind
        · exact hv.beside_of_isHollow hb (isHollow_of_isEmptyBlock (hv.child hb) empty) hbelow hkl
      · exact .inr (hstop.trans hle)
  | @branches c b kind consequence alternative empty empty' =>
    obtain ⟨a, ha, hab⟩ := exists_isBranchOf alternative
    obtain ⟨before, between, behind, hsplit, htrivia⟩ :=
      h.isLaidOut.branches c a kind consequence ha
    have hc := h.child (mem_children_of_child? consequence)
    have hwf := h.child (mem_children_of_child? ha)
    have hb := hab.mem_walk
    have hollow := isHollow_of_isEmptyBlock (hwf.below hb) empty'
    rcases h.beside_branches hsplit htrivia (isHollow_of_isEmptyBlock hc empty) hm hkl with
      hle | hbelow | hle
    · exact .inl hle
    · exact .inr (hab.stop_le_start hwf hollow hbelow hkl)
    · exact .inr ((hwf.bounds hb).2.trans hle)

/-- Empty code of a node and that of a node below it lie apart. -/
theorem apart_below (h : n.IsWellFormed) (hm : m ∈ walkAll n.children) : n.Apart m := by
  intro i j k l hn hkl
  have hwalk : m ∈ n.walk := walk_eq n ▸ List.mem_cons_of_mem n hm
  obtain ⟨hstart, -, hstop⟩ := hkl.bounds (h.below hwalk)
  rcases hn.beside h hm hkl with hle | hle
  · exact .inr (hstop.trans hle)
  · exact .inl (hle.trans hstart)

end HasEmptyCode

theorem InOrder.pairwise_walkAll (h : InOrder i j ns) (hns : ∀ n ∈ ns, n.IsWellFormed)
    (hall : ∀ n ∈ ns, n.walk.Pairwise Apart) : (walkAll ns).Pairwise Apart := by
  induction ns generalizing i with
  | nil => exact .nil
  | cons n ns ih =>
    obtain ⟨hn, hns⟩ := List.forall_mem_cons.mp hns
    obtain ⟨hin, hall⟩ := List.forall_mem_cons.mp hall
    refine List.pairwise_append.mpr ⟨hin, ih h.2 hns hall, fun x hx y hy => ?_⟩
    obtain ⟨z, hz, hyz⟩ := exists_of_mem_walkAll hy
    intro i j k l hij hkl
    obtain ⟨-, -, hj⟩ := hij.bounds (hn.below hx)
    obtain ⟨hk, -⟩ := hkl.bounds ((hns z hz).below hyz)
    exact .inl (hj.trans ((hn.bounds hx).2.trans ((h.2.bounds_walkAll hns hy).1.trans hk)))

/-- In the tree of a program that parses no two nodes have empty code in common. -/
theorem IsWellFormed.pairwise_apart (h : root.IsWellFormed) : root.walk.Pairwise Apart := by
  induction root using induction with
  | step n ih =>
    rw [walk_eq]
    refine List.pairwise_cons.mpr ⟨fun m hm => HasEmptyCode.apart_below h hm, ?_⟩
    exact h.isLaidOut.inOrder.pairwise_walkAll (fun c hc => h.child hc) fun c hc =>
      ih c hc (h.child hc)

end SnippetGate.Tsx.Node
