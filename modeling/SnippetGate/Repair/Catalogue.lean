import SnippetGate.Repair.Cleanup
import SnippetGate.Repair.Closure
import SnippetGate.Repair.Duplication
import SnippetGate.Repair.EmptyBody
import SnippetGate.Repair.EntryPoint

/-!
# The repairs in their order
-/

namespace SnippetGate.Repair

/-- All repairs, in the order in which they are tried. -/
def catalogue (cfg : Settings) : List Repair :=
  [normalizeNewlines, stripFences, stripModule cfg] ++ ofTier .typo ++ [adoptEntryPoint cfg] ++
    ofTier .conditional ++
    [fillHandlers, stripTail cfg, collapseUnits cfg, collapseReturnClose, stripOrphanClosers] ++
    ofTier .duplication ++ [mendTagPairs cfg, appendClosers cfg]

/-- Repair a text. -/
def repair (cfg : Settings) (t : Text) : Progress := runAll (catalogue cfg) t

end SnippetGate.Repair
