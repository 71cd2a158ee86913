import SnippetGate.Balance.Scan
import SnippetGate.Contract.Corruption
import SnippetGate.Journal

/-!
# The repair engine

A repair detects a defect and mends it. The engine tries a list of repairs in order on one text:
a repair counts if it changes the text without raising the cost of its balance. A repair that
fails, changes nothing or raises the cost leaves the text as it was.
-/

namespace SnippetGate

/-- A named repair. Both of its parts may fail with a message. -/
structure Repair where
  name : Text
  tier : Tier
  /-- A fragment that shows the defect. -/
  detect : Text → Except Text (Option Text)
  /-- The text with the defect mended. -/
  action : Text → Except Text Text
  /-- The wording of the defect, if the checks report it. -/
  message : Text := []

namespace Repair

/-- A repair that never fails. -/
def sure (name : String) (tier : Tier) (detect : Text → Option Text) (action : Text → Text) :
    Repair where
  name := name.toList
  tier := tier
  detect := fun t => .ok (detect t)
  action := fun t => .ok (action t)

/-- The repair of a signature, if it has an action. -/
def ofSignature? (s : Signature) : Option Repair :=
  s.action?.map fun action =>
    { name := s.name
      tier := s.tier
      detect := fun t => .ok (s.detect t)
      action := fun t => .ok (action t)
      message := s.message }

/-- The repairs of the signatures of a tier. -/
def ofTier (tier : Tier) : List Repair := (Signature.ofTier tier).filterMap ofSignature?

/-- A repair that replaces the pieces of a pattern and shows the first of them. -/
def ofPattern (name : String) (tier : Tier) (p : Pattern) (f : Match → Text) : Repair :=
  sure name tier (fun t => (p.search? t).map fun m => Text.trim m.text) (p.replaceAll f)

/-- What a repair makes of a text: nothing if it detects no defect. -/
def propose (r : Repair) (t : Text) : Except Text (Option Text) :=
  match r.detect t with
  | .error e => .error e
  | .ok none => .ok none
  | .ok (some _) => (r.action t).map some

/-- The state of the engine. -/
structure Progress where
  text : Text
  /-- The cost of the text's balance. -/
  cost : Nat
  /-- The names of the repairs that counted, in order. -/
  applied : List Text := []
  /-- The journal, in order. -/
  journal : List Entry := []
  deriving DecidableEq, Repr

/-- The cost of a text's balance. -/
def costOf (t : Text) : Nat := (Scan.ofText t).cost

/-- The note that a repair failed. -/
def failedNote (r : Repair) (e : Text) : Entry :=
  .line ("repair: ".toList ++ r.name ++ " failed: ".toList ++ e)

/-- The note that a repair was not kept. -/
def revertedNote (r : Repair) (cost newCost : Nat) : Entry :=
  .line ("repair: ".toList ++ r.name ++ " reverted (balance cost ".toList ++ Text.ofNat cost ++
    " -> ".toList ++ Text.ofNat newCost ++ [')'])

/-- Try one repair. -/
def attempt (p : Progress) (r : Repair) : Progress :=
  match r.propose p.text with
  | .error e => { p with journal := p.journal ++ [r.failedNote e] }
  | .ok none => p
  | .ok (some candidate) =>
    if candidate = p.text then p
    else
      let cost := costOf candidate
      if cost > p.cost then { p with journal := p.journal ++ [r.revertedNote p.cost cost] }
      else { p with text := candidate, cost := cost, applied := p.applied ++ [r.name] }

/-- Where the engine begins. -/
def begin (t : Text) : Progress := { text := t, cost := costOf t }

/-- Try the repairs in order. -/
def runAll (rs : List Repair) (t : Text) : Progress := rs.foldl attempt (begin t)

end Repair

end SnippetGate
