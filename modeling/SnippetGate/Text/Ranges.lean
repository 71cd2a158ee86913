/-!
# Sets of code points

A set of code points is written as its closed ranges in increasing order.
-/

namespace SnippetGate

/-- Closed ranges of code points, in increasing order. -/
abbrev Ranges := List (Nat × Nat)

/-- Whether a code point lies in one of the ranges. The walk ends at the first range that begins
past it. -/
def Ranges.hold : Ranges → Nat → Bool
  | [], _ => false
  | r :: rs, n => r.1 ≤ n && (n ≤ r.2 || Ranges.hold rs n)

end SnippetGate
