import SnippetGate.Bytes.Utf8

/-!
# Splicing edits

Edits replace ranges of bytes. Those that overlap an earlier one are left out; the others are
carried out at once, from the last to the first, so that the offsets stay right.
-/

namespace SnippetGate

/-- The replacement of a range of bytes, with the name of the repair that asks for it. -/
structure Edit where
  start : Nat
  stop : Nat
  replacement : Bytes
  name : Text
  deriving DecidableEq, Repr

namespace Edit

/-- The edits in the order of their beginnings. Edits with the same beginning keep their order. -/
def sorted (es : List Edit) : List Edit := es.mergeSort fun a b => a.start ≤ b.start

/-- The edits that begin where the one kept before them has ended, or later. -/
def disjointFrom : Nat → List Edit → List Edit
  | _, [] => []
  | last, e :: es =>
    if e.start < last then disjointFrom last es else e :: disjointFrom e.stop es

/-- The edits that are carried out. -/
def chosen (es : List Edit) : List Edit := disjointFrom 0 (sorted es)

/-- Carry out one edit. -/
def applyTo (e : Edit) (bs : Bytes) : Bytes := bs.take e.start ++ e.replacement ++ bs.drop e.stop

/-- The bytes after the chosen edits, and the names of those, each once. -/
def splice (bs : Bytes) (es : List Edit) : Bytes × List Text :=
  let kept := chosen es
  (kept.foldr applyTo bs, (kept.map Edit.name).eraseDups)

end Edit

end SnippetGate
