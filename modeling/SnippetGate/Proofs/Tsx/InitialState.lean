import SnippetGate.Proofs.Tsx.Apart

/-!
# The state that a handler restores

A handler that begins again is filled with one call for each declaration of state in the program,
in the order of the declarations. Each call gives its setter the expression that the state starts
with: the first argument of the declaration, or `undefined` if it has no arguments. Comments behind
or between the arguments do not matter, but a comment before all of them is taken for the first.
-/

namespace SnippetGate.Tsx

/-- A declaration of state: the two names of a pair, and the call whose result the pair is given. -/
@[ext]
structure StateDeclaration where
  name : Node
  setter : Node
  call : Node

namespace StateDeclaration

variable {source : Bytes} {d : StateDeclaration}

/-- What stands between the brackets of the call, comments and remarks included. -/
def items (d : StateDeclaration) : List Node :=
  ((d.call.child? .arguments).map Node.namedChildren).getD []

/-- The arguments of the call. -/
def arguments (d : StateDeclaration) : List Node := d.items.filter (!·.isExtra)

/-- The comment that stands before all arguments, if there is one. -/
def leadingComment? (d : StateDeclaration) : Option Node := d.items.head?.filter Node.isExtra

/-- The variable that is declared. It starts with the first argument. -/
def declared (source : Bytes) (d : StateDeclaration) : StateVar :=
  ⟨d.name.text source, d.setter.text source,
    (d.arguments.head?.map (Node.text source)).getD StateVar.noInitial⟩

/-- The variable that is recorded: the one that is declared, but a comment before all arguments is
taken for the expression that it starts with. -/
def recorded (source : Bytes) (d : StateDeclaration) : StateVar :=
  match d.leadingComment? with
  | none => d.declared source
  | some c => { d.declared source with initial := c.text source }

/-- What is recorded is the first thing between the brackets, whatever it is. -/
theorem recorded_eq : d.recorded source = ⟨d.name.text source, d.setter.text source,
    (d.items.head?.map (Node.text source)).getD StateVar.noInitial⟩ := by
  rw [recorded, leadingComment?, declared, arguments]
  cases d.items with
  | nil => rfl
  | cons x rest => by_cases hx : x.isExtra <;> simp [Option.filter, hx]

theorem head?_items :
    d.items.head? = (d.call.child? .arguments).bind fun a => a.namedChildren.head? := by
  rw [items]
  cases d.call.child? .arguments <;> rfl

end StateDeclaration

namespace Node

variable {source : Bytes} {n : Node} {ns : List Node} {d d' : StateDeclaration}
  {ds ds' : List StateDeclaration} {v : StateVar}

/-- The node declares state: it gives a pair of plain names what a function that declares state
returns. -/
structure Declares (source : Bytes) (n : Node) (d : StateDeclaration) : Prop where
  kind : n.kind = .variableDeclarator
  names : ∃ pattern, n.child? .name = some pattern ∧ pattern.kind = .arrayPattern ∧
    pattern.namedChildren.filter (·.kind == .identifier) = [d.name, d.setter]
  value : n.child? .value = some d.call
  call : d.call.kind = .callExpression
  hook : ∃ callee, d.call.child? .function = some callee ∧ callee.text source ∈ stateHooks

theorem Declares.unique (h : n.Declares source d) (h' : n.Declares source d') : d = d' := by
  obtain ⟨pattern, hpattern, -, hnames⟩ := h.names
  obtain ⟨pattern', hpattern', -, hnames'⟩ := h'.names
  obtain rfl := Option.some.inj (hpattern.symm.trans hpattern')
  obtain ⟨hname, hrest⟩ := List.cons.inj (hnames.symm.trans hnames')
  obtain ⟨hsetter, -⟩ := List.cons.inj hrest
  have hcall := Option.some.inj (h.value.symm.trans h'.value)
  exact StateDeclaration.ext hname hsetter hcall

/-- The declarations of state that nodes make, in the order of the nodes. -/
inductive DeclaredIn (source : Bytes) : List Node → List StateDeclaration → Prop where
  | nil : DeclaredIn source [] []
  | other {n : Node} {ns : List Node} {ds : List StateDeclaration}
    (h : ∀ d, ¬ n.Declares source d) (rest : DeclaredIn source ns ds) :
    DeclaredIn source (n :: ns) ds
  | declares {n : Node} {ns : List Node} {d : StateDeclaration} {ds : List StateDeclaration}
    (h : n.Declares source d) (rest : DeclaredIn source ns ds) :
    DeclaredIn source (n :: ns) (d :: ds)

theorem DeclaredIn.unique (h : DeclaredIn source ns ds) (h' : DeclaredIn source ns ds') :
    ds = ds' := by
  induction h generalizing ds' with
  | nil => cases h'; rfl
  | other hn rest ih =>
    cases h' with
    | other _ rest' => exact ih rest'
    | declares hn' _ => exact absurd hn' (hn _)
  | declares hn rest ih =>
    cases h' with
    | other hn' _ => exact absurd hn (hn' _)
    | declares hn' rest' => rw [hn.unique hn', ih rest']

theorem exists_declaredIn (source : Bytes) (ns : List Node) : ∃ ds, DeclaredIn source ns ds := by
  induction ns with
  | nil => exact ⟨[], .nil⟩
  | cons n ns ih =>
    obtain ⟨ds, rest⟩ := ih
    by_cases h : ∃ d, n.Declares source d
    · obtain ⟨d, hd⟩ := h
      exact ⟨d :: ds, .declares hd rest⟩
    · exact ⟨ds, .other (not_exists.mp h) rest⟩

/-- A node has a state variable if it declares state, and then it is the recorded one. -/
theorem stateVar?_eq_some_iff :
    n.stateVar? source = some v ↔ ∃ d, n.Declares source d ∧ d.recorded source = v := by
  constructor
  · intro h
    simp only [stateVar?, Option.bind_eq_bind, Option.bind_eq_some_iff,
      Option.guard_eq_some'] at h
    obtain ⟨_, kind, pattern, hpattern, call, hcall, _, hkinds, callee, hcallee, _, hook, h⟩ := h
    obtain ⟨hpatternKind, hcallKind⟩ := (Bool.and_eq_true _ _).mp hkinds
    split at h
    · next name setter hnames =>
      refine ⟨⟨name, setter, call⟩, ⟨by simpa using kind, ⟨pattern, hpattern,
        by simpa using hpatternKind, hnames⟩, hcall, by simpa using hcallKind,
        callee, hcallee, by simpa using hook⟩, ?_⟩
      rw [StateDeclaration.recorded_eq, StateDeclaration.head?_items]
      exact Option.some.inj h
    · cases h
  · rintro ⟨d, ⟨kind, ⟨pattern, hpattern, hpatternKind, hnames⟩, hcall, hcallKind, callee,
      hcallee, hook⟩, rfl⟩
    rw [StateDeclaration.recorded_eq, StateDeclaration.head?_items]
    simp [stateVar?, kind, hpattern, hcall, hpatternKind, hcallKind, hcallee, hook, hnames]

theorem DeclaredIn.filterMap_stateVar? (h : DeclaredIn source ns ds) :
    ns.filterMap (stateVar? source) = ds.map (·.recorded source) := by
  induction h with
  | nil => rfl
  | @other n ns ds hn rest ih =>
    have hnone : n.stateVar? source = none := by
      refine Option.eq_none_iff_forall_ne_some.mpr fun v hv => ?_
      obtain ⟨d, hd, -⟩ := stateVar?_eq_some_iff.mp hv
      exact hn d hd
    rw [List.filterMap_cons_none hnone, ih]
  | @declares n ns d ds hn rest ih =>
    rw [List.filterMap_cons_some (stateVar?_eq_some_iff.mpr ⟨d, hn, rfl⟩), ih, List.map_cons]

end Node

namespace Filling

variable {root n body : Node} {p : Program}

/-- The call that gives a state variable its initial expression again. -/
def resetLine (v : StateVar) : Text := Handler.callLine v.setter v.initial

/-- The node gives the empty body to a handler that begins again. -/
structure IsEmptyReset (source : Bytes) (n body : Node) : Prop where
  handler : ∃ name, n.handler? = some (name, body) ∧
    Role.ofName? (name.text source) = some .reset
  empty : body.isEmptyBlock = true

theorem body?_reset (vs : List StateVar) (collection : Text) :
    Handler.body? .reset vs collection = if vs.isEmpty then none else some (vs.map resetLine) :=
  rfl

theorem conditionalEdit?_eq_none (h : n.kind ≠ .ifStatement) : conditionalEdit? p n = none := by
  refine Option.eq_none_iff_forall_ne_some.mpr fun e he => ?_
  obtain ⟨_, _, _, _, hwants, -⟩ := conditionalEdit?_eq_some_iff.mp he
  exact h hwants.kind

/-- A handler that begins again wants a call for each state variable, if there are any. -/
theorem nodeEdit?_of_isEmptyReset (h : IsEmptyReset p.source n body) :
    nodeEdit? p n =
      if p.stateVars.isEmpty then none
      else some (p.bodyEdit n .reset body (p.stateVars.map resetLine)) := by
  obtain ⟨name, handler, hrole⟩ := h.handler
  have hkind : n.kind ≠ .ifStatement := fun hif => by
    cases (Node.handler?_eq_none hif).symm.trans handler
  have hedit : handlerEdit? p n =
      (Handler.body? .reset p.stateVars p.collection).map (p.bodyEdit n .reset body) := by
    simp [handlerEdit?, handler, hrole, h.empty, Role.isFilledInText, Program.bodyEdit,
      Option.map_eq_bind, Function.comp_def]
  rw [nodeEdit?, hedit, conditionalEdit?_eq_none hkind, body?_reset]
  split <;> rfl

/-- A handler that begins again restores what the program declares. Each declaration of state, and
nothing else, is recorded as a variable with the expression that it starts with, in the order of the
declarations. Where there are some, each empty handler that begins again is filled with one call for
each of them, which gives the setter that expression. Only if a comment stands before all arguments
is this comment recorded, and given to the setter, in the place of the first argument. -/
theorem resets_declared (h : root.IsWellFormed) (t : Text) (source : Bytes) :
    let p := Program.of t source root
    ∃ ds, (∀ ds', Node.DeclaredIn source root.walk ds' ↔ ds' = ds) ∧
      p.stateVars = ds.map (·.recorded source) ∧
      ∀ n ∈ root.walk, ∀ body, IsEmptyReset source n body →
        Edit.touching body.start body.stop (Edit.chosen (edits t source root)) =
          if ds.isEmpty then []
          else [p.bodyEdit n .reset body (ds.map fun d => resetLine (d.recorded source))] := by
  intro p
  obtain ⟨ds, hds⟩ := Node.exists_declaredIn source root.walk
  have hvars : p.stateVars = ds.map (·.recorded source) := hds.filterMap_stateVar?
  refine ⟨ds, fun ds' => ⟨fun h' => h'.unique hds, fun h' => h' ▸ hds⟩, hvars,
    fun n hn body hreset => ?_⟩
  obtain ⟨name, handler, -⟩ := hreset.handler
  have hcode : n.HasEmptyCode body.start body.stop := .body handler hreset.empty
  rw [touching_chosen_edits h t source hn hcode, nodeEdit?_of_isEmptyReset hreset, hvars,
    List.isEmpty_map, List.map_map]
  cases ds.isEmpty <;> rfl

/-! ### A program with comments among arguments -/

/-- A program with an empty handler and two declarations of state: with a comment before the
argument, and with one behind it. -/
def resettingText : Text :=
  ("const [a,setA]=useState(/* */0),[b,setB]=React.useState(1/* */);" ++
    "function handleReset()\x7b\x7d").toList

/-- The declaration of state from byte `i` to byte `j`, with a name of one letter and a setter of
four. -/
def declarationAt (i j : Nat) (hook : Node) (items : List Node) : Node :=
  .mk .variableDeclarator none ⟨i, j, 0⟩
    [.mk .arrayPattern (some .name) ⟨i, i + 8, 0⟩
      [leafAt .token none i (i + 1), leafAt .identifier none (i + 1) (i + 2),
        leafAt .token none (i + 2) (i + 3), leafAt .identifier none (i + 3) (i + 7),
        leafAt .token none (i + 7) (i + 8)],
      leafAt .token none (i + 8) (i + 9),
      .mk .callExpression (some .value) ⟨i + 9, j, 0⟩
        [hook,
          .mk (.other "arguments") (some .arguments) ⟨hook.stop, j, 0⟩
            (leafAt .token none hook.stop (hook.stop + 1) :: items ++
              [leafAt .token none (j - 1) j])]]

/-- The declaration with a comment before its argument. -/
def ledDeclaration : Node :=
  declarationAt 6 31 (leafAt .identifier (some .function) 15 23)
    [leafAt .comment none 24 29, leafAt (.other "number") none 29 30]

/-- The declaration with a comment behind its argument. -/
def trailedDeclaration : Node :=
  declarationAt 32 63
    (.mk (.other "member_expression") (some .function) ⟨41, 55, 0⟩
      [leafAt .identifier none 41 46, leafAt .token none 46 47,
        leafAt (.other "property_identifier") none 47 55])
    [leafAt (.other "number") none 56 57, leafAt .comment none 57 62]

/-- The tree of the program. -/
def resettingRoot : Node :=
  .mk (.other "program") none ⟨0, 88, 0⟩
    [.mk (.other "lexical_declaration") none ⟨0, 64, 0⟩
      [leafAt .token none 0 5, ledDeclaration, leafAt .token none 31 32, trailedDeclaration,
        leafAt .token none 63 64],
      resetHandler]

theorem isWellFormed_resettingRoot : resettingRoot.IsWellFormed := by
  have hall : ∀ n ∈ resettingRoot.walk, Node.InOrder n.start n.stop n.children ∧
      (n.isTrivia = true → n.children = []) ∧ (n.kind = .statementBlock → n.start < n.stop) ∧
      n.kind ≠ .ifStatement := by
    decide +kernel
  intro n hn
  obtain ⟨inOrder, leaf, braces, hif⟩ := hall n hn
  exact ⟨inOrder, leaf, braces, fun _ _ hkind => absurd hkind hif⟩

theorem resets_declared_commentedArgument :
    let source := Bytes.ofText resettingText
    let p := Program.of resettingText source resettingRoot
    let es := Edit.chosen (edits resettingText source resettingRoot)
    resettingRoot.IsWellFormed ∧
      (∃ d, ledDeclaration.Declares source d ∧ (d.declared source).initial = "0".toList ∧
        (d.recorded source).initial = "/* */".toList) ∧
      Edit.touching 86 88 es = [p.bodyEdit resetHandler .reset (emptyBlockAt (some .body) 86)
        ["setA(/* */);".toList, "setB(1);".toList]] := by
  intro source p es
  obtain ⟨ds, -, hvars, hresets⟩ := resets_declared isWellFormed_resettingRoot resettingText source
  have hrecorded : ds.map (·.recorded source) =
      [⟨"a".toList, "setA".toList, "/* */".toList⟩, ⟨"b".toList, "setB".toList, "1".toList⟩] := by
    rw [← hvars]
    decide +kernel
  have hlines : (ds.map fun d => resetLine (d.recorded source)) =
      ["setA(/* */);".toList, "setB(1);".toList] := by
    have hmap := congrArg (List.map resetLine) hrecorded
    rw [List.map_map] at hmap
    exact hmap
  refine ⟨isWellFormed_resettingRoot, ?_, ?_⟩
  · exact ⟨⟨leafAt .identifier none 7 8, leafAt .identifier none 9 13, _⟩,
      ⟨rfl, ⟨_, rfl, rfl, rfl⟩, rfl, rfl, _, rfl, by decide +kernel⟩, by decide +kernel,
      by decide +kernel⟩
  · have hmem : resetHandler ∈ resettingRoot.walk :=
      Node.walk_subset_of_mem_children (by simp [resettingRoot, Node.children])
        resetHandler.mem_walk_self
    have hds : ds.isEmpty = false := by
      rw [← List.isEmpty_map, hrecorded]
      rfl
    have hreset : IsEmptyReset source resetHandler (emptyBlockAt (some .body) 86) :=
      ⟨⟨leafAt .identifier (some .name) 73 84, rfl, by decide +kernel⟩, rfl⟩
    have htouching := hresets resetHandler hmem _ hreset
    rw [hds, hlines] at htouching
    exact htouching

end Filling

end SnippetGate.Tsx
