import SnippetGate.Tsx.StatementEnd

/-!
# Grammar rules

A grammar gives each of its symbols a rule. Reading a rule takes the tokens that it asks for, the
first alternative that fits, and as many repetitions as fit; it leaves nodes behind. A node ends
with its last token, and the comments before its first token stay outside of it, so a comment
stands in the innermost node that has tokens on both of its sides. Remarks are comments that are
read only where they are expected: after a token that can end no expression, and where a rule asks
for them.
-/

namespace SnippetGate.Tsx

/-- A rule over the symbols `S` of a grammar. -/
inductive Rule (S : Type) where
  /-- Nothing. -/
  | empty
  /-- A fixed piece of text. -/
  | punct (t : Text)
  /-- A fixed piece of text directly after the last token. -/
  | glued (t : Text)
  /-- A word. -/
  | word (t : Text)
  /-- A token of the given length, as a node. -/
  | lexeme (kind : NodeKind) (length? : Text → Option Nat)
  /-- A token of the given length directly after the last one, as a node. -/
  | gluedLexeme (kind : NodeKind) (length? : Text → Option Nat)
  /-- One rule after the other. -/
  | seq (a b : Rule S)
  /-- The first rule or, if it does not fit, the second. -/
  | alt (a b : Rule S)
  /-- As many repetitions as fit. -/
  | many (a : Rule S)
  /-- The first rule if the second fits after it. If it fits and the second does not, the third
  instead of both. -/
  | before (a next b : Rule S)
  /-- The rule of a symbol. -/
  | sym (s : S)
  /-- The rule as a node. -/
  | node (kind : NodeKind) (a : Rule S)
  /-- The rule, with its node as the holder of a field. -/
  | field (f : Field) (a : Rule S)
  /-- The rule, with its nodes kept apart from those before. -/
  | isolate (a : Rule S)
  /-- The rule together with all nodes kept apart so far, as a node. The first of them holds the
  field. -/
  | wrap (kind : NodeKind) (f? : Option Field) (a : Rule S)
  /-- Nothing, where the last node has one of the kinds. -/
  | after (kinds : List NodeKind)
  /-- Nothing, where the rule does not fit. -/
  | notAhead (a : Rule S)
  /-- Nothing, where no newline follows. -/
  | sameLine
  /-- Remarks. -/
  | remarks
  /-- Remarks, where a statement can end without a semicolon. -/
  | statementEnd (afterExpression : Bool)

/-- The state of a reader. -/
structure Reader where
  /-- The place after the last token. -/
  last : Place
  /-- The place of the next token. -/
  here : Place
  /-- The comments and remarks between them, the latest first. -/
  comments : List Node
  /-- Whether a newline is between them. -/
  newline : Bool
  /-- The nodes read so far, the latest first. -/
  out : List Node

namespace Reader

/-- The comment or, where remarks are expected, the remark at the beginning of a text, with its
length. -/
def extra? (remarks : Bool) (t : Text) : Option (NodeKind × Nat) :=
  match comment? t with
  | some n => some (.comment, n)
  | none => if remarks then (remark? t).map (NodeKind.remark, ·) else none

theorem two_le_of_extra? {remarks : Bool} {t : Text} {k : NodeKind} {n : Nat}
    (h : extra? remarks t = some (k, n)) : 2 ≤ n ∧ t ≠ [] := by
  unfold extra? at h
  split at h
  · rename_i hc
    simp only [Option.some.injEq, Prod.mk.injEq] at h
    exact h.2 ▸ two_le_of_comment? hc
  · split at h
    · obtain ⟨m, hm, he⟩ := Option.map_eq_some_iff.1 h
      simp only [Prod.mk.injEq] at he
      have := three_le_of_remark? hm
      exact ⟨by omega, this.2⟩
    · cases h

/-- The place of the next token after a place, with the comments before it, the latest first. -/
def toToken (remarks : Bool) (p : Place) (cs : List Node) : Place × List Node :=
  let q := p.skip (spaces p.rest)
  match _h : extra? remarks q.rest with
  | none => (q, cs)
  | some (k, n) =>
    let r := q.skip n
    toToken remarks r (.mk k none (q.extentTo r) [] :: cs)
termination_by p.rest.length
decreasing_by
  obtain ⟨hn, hq⟩ := two_le_of_extra? _h
  have hq' := List.length_pos_iff.mpr hq
  simp only [q, Place.rest_skip, List.length_drop] at hq' ⊢
  omega

/-- The state after a token that ends at a place, with the nodes read so far. -/
def arrive (remarks : Bool) (p : Place) (out : List Node) : Reader :=
  let (q, cs) := toToken remarks p []
  { last := p, here := q, comments := cs, newline := p.row < q.row, out := out }

/-- The state at the beginning of a program. -/
def start (t : Text) : Reader := arrive true ⟨t, 0, 0⟩ []

/-- The state after the remarks before the next token. -/
def pastRemarks (s : Reader) : Reader :=
  let (q, cs) := toToken true s.here s.comments
  { s with here := q, comments := cs, newline := s.last.row < q.row }

/-- The fixed pieces of text that can end an expression or a block. -/
def closing : List Text :=
  [")", "]", "\x7d", ">", "!", "++", "--", "\x60"].map String.toList

/-- The words after which something must follow. -/
def leading : List Text :=
  ["as", "await", "case", "catch", "class", "const", "default", "delete", "do", "else", "enum",
    "extends", "finally", "for", "function", "if", "implements", "import", "in", "instanceof",
    "interface", "of", "satisfies", "switch", "throw", "try", "typeof", "var", "void", "while",
    "with"].map String.toList

/-- Whether remarks are expected after a token: a fixed piece of text that can end no
expression. -/
def expectsRemarks (kind : NodeKind) (token : Text) : Bool :=
  kind == .token &&
    if token.any isIdentifierChar then leading.contains token else !closing.contains token

/-- Take a token of `n` characters. -/
def take (s : Reader) (kind : NodeKind) (n : Nat) : Reader :=
  let q := s.here.skip n
  arrive (expectsRemarks kind (s.here.rest.take n)) q
    (.mk kind none (s.here.extentTo q) [] :: (s.comments ++ s.out))

/-- Take a token of `n` characters directly after the last one. -/
def takeGlued (s : Reader) (kind : NodeKind) (n : Nat) : Reader :=
  let q := s.last.skip n
  arrive (expectsRemarks kind (s.last.rest.take n)) q
    (.mk kind none (s.last.extentTo q) [] :: s.out)

/-- A node of the given children, which are in order. -/
def nodeOf (kind : NodeKind) (atEmpty : Place) (cs : List Node) : Node :=
  match cs, cs.getLast? with
  | c :: _, some l => .mk kind none ⟨c.start, l.stop, c.row⟩ cs
  | _, _ => .mk kind none ⟨atEmpty.byte, atEmpty.byte, atEmpty.row⟩ []

/-- The nodes, the latest first, as one node, before which the comments before its first token
stand. -/
def gather (kind : NodeKind) (atEmpty : Place) (out : List Node) : List Node :=
  let inOrder := out.reverse
  let leading := inOrder.takeWhile Node.isExtra
  nodeOf kind atEmpty (inOrder.drop leading.length) :: leading.reverse

/-- The nodes with the first that is no comment as the holder of a field. -/
def labelFirst (f : Field) : List Node → List Node
  | [] => []
  | n :: ns => if n.isExtra then n :: labelFirst f ns else n.withField f :: ns

/-- The nodes, the latest first, with the earliest that is no comment as the holder of a field. -/
def label (f : Field) (out : List Node) : List Node := (labelFirst f out.reverse).reverse

/-- Whether the next characters are the given ones. -/
def isBefore (s : Reader) (t : Text) : Bool := t.isPrefixOf s.here.rest

/-- Whether the next word is the given one. -/
def isBeforeWord (s : Reader) (t : Text) : Bool :=
  t.isPrefixOf s.here.rest && nameChars 0 (s.here.rest.drop t.length) == 0

end Reader

namespace Rule

variable {S : Type}

/-- Read a rule. The fuel bounds the depth of the rules and the number of repetitions. -/
def read (grammar : S → Rule S) : Nat → Rule S → Reader → Option Reader
  | 0, _, _ => none
  | fuel + 1, r, s =>
    match r with
    | .empty => some s
    | .punct t => if s.isBefore t then some (s.take .token t.length) else none
    | .glued t => if t.isPrefixOf s.last.rest then some (s.takeGlued .token t.length) else none
    | .word t => if s.isBeforeWord t then some (s.take .token t.length) else none
    | .lexeme k length? => (length? s.here.rest).map (s.take k)
    | .gluedLexeme k length? => (length? s.last.rest).map (s.takeGlued k)
    | .seq a b =>
      match read grammar fuel a s with
      | none => none
      | some t => read grammar fuel b t
    | .alt a b =>
      match read grammar fuel a s with
      | some t => some t
      | none => read grammar fuel b s
    | .many a =>
      match read grammar fuel a s with
      | none => some s
      | some t =>
        if t.last.byte ≤ s.last.byte then some s else read grammar fuel (.many a) t
    | .before a next b =>
      match read grammar fuel a s with
      | none => none
      | some t => if (read grammar fuel next t).isSome then some t else read grammar fuel b s
    | .sym x => read grammar fuel (grammar x) s
    | .node k a =>
      match read grammar fuel a { s with out := [] } with
      | none => none
      | some t => some { t with out := Reader.gather k s.last t.out ++ s.out }
    | .field f a =>
      match read grammar fuel a { s with out := [] } with
      | none => none
      | some t => some { t with out := Reader.label f t.out ++ s.out }
    | .isolate a =>
      match read grammar fuel a { s with out := [] } with
      | none => none
      | some t => some { t with out := t.out ++ s.out }
    | .wrap k f? a =>
      let head := match f? with
        | none => s.out
        | some f => Reader.label f s.out
      match read grammar fuel a { s with out := head } with
      | none => none
      | some t => some { t with out := Reader.gather k s.last t.out }
    | .after ks => if (s.out.head?.map fun n => ks.contains n.kind).getD false then some s else none
    | .notAhead a => if (read grammar fuel a s).isSome then none else some s
    | .sameLine => if s.newline then none else some s
    | .remarks => some s.pastRemarks
    | .statementEnd e =>
      if endsStatement e (s.last.rest.length + 1) s.last.rest then some s.pastRemarks else none

/-! ### Building rules -/

/-- The rules one after the other. -/
def all : List (Rule S) → Rule S
  | [] => .empty
  | [a] => a
  | a :: as => .seq a (all as)

/-- The first of the rules that fits. -/
def any : List (Rule S) → Rule S
  | [] => .notAhead .empty
  | [a] => a
  | a :: as => .alt a (any as)

/-- The rule if it fits, else nothing. -/
def opt (a : Rule S) : Rule S := .alt a .empty

/-- A fixed piece of text. -/
def p (s : String) : Rule S := .punct s.toList

/-- A word. -/
def kw (s : String) : Rule S := .word s.toList

/-- Nothing, where the rule fits. -/
def ahead (a : Rule S) : Rule S := .notAhead (.notAhead a)

/-- The rule several times, with commas between and perhaps one at the end. -/
def list (a : Rule S) : Rule S := opt (all [a, .many (.seq (p ",") a), opt (p ",")])

/-- The rule several times, with commas between. -/
def list1 (a : Rule S) : Rule S := .seq a (.many (.seq (p ",") a))

/-- The rule several times or not at all between commas, in which places may be left out. -/
def sparseList (a : Rule S) : Rule S := .seq (opt a) (.many (.seq (p ",") (opt a)))

/-- The rule between parentheses. -/
def parens (a : Rule S) : Rule S := all [p "(", a, p ")"]

/-- The rule between brackets. -/
def brackets (a : Rule S) : Rule S := all [p "[", a, p "]"]

/-- The rule between braces. -/
def braces (a : Rule S) : Rule S := all [p "\x7b", a, p "\x7d"]

/-- The rule as a node whose kind nothing depends on. -/
def named (label : String) (a : Rule S) : Rule S := .node (.other label) a

end Rule

end SnippetGate.Tsx
